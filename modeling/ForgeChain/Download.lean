import ForgeChain.Locators

/-!
Catching up round after round. Once an answer outweighs the chain of the node
behind, that chain is the beginning of the other's, the locator starts with its
tip, and every further answer adds the next `MAX_BLOCKS_PER_RESPONSE` blocks:
after enough rounds the chains are the same (`download_completes`).
-/
namespace ForgeChain.Download
open Runs Blockchain BlockTree Placement Sync Samples

/-- A round at a time of the clock. -/
def round (P : Primitives) (ahead behind : ChainManager) (now : UInt64) : ChainManager := (catchUp P ahead behind now).2

section
variable {P : Primitives} {given shared rest others : List Block} {ahead behind : ChainManager} {now : UInt64}

/-- What a block brings along as its work does not matter to a chain. -/
theorem foldl_addBlock_stamp (chain : Blockchain) (work : UInt64) (blocks : List Block) :
    (stamp work blocks).foldl .addBlock chain = blocks.foldl .addBlock chain := by
  induction blocks generalizing chain work with
  | nil => rfl
  | cons block rest ih =>
    rw [stamp,List.foldl_cons,List.foldl_cons,ih]
    rfl

theorem pathWork_drop {chain : Blockchain} {path : List Block} (follows : Follows P chain path) :
    pathWork (chain.blocks.drop 1) = pathWork path := by
  have works := follows.map_eq (f := fun block => block.blockWork.toNat) fun _ _ => rfl
  have above := congrArg (List.drop 1) works
  rw [← List.map_drop,List.map_cons,List.drop_succ_cons,List.drop_zero] at above
  rw [pathWork,above,pathWork]

/-- A node that has adopted blocks of the other one follows its path. -/
theorem placed_reorganized (distinct : Distinct P given) (front : Placed P given (shared ++ rest) ahead)
    (back : Placed P given (shared ++ others) behind) {m' : ChainManager} {count : Nat} {work : UInt64}
    (regular : Regular P m') (pool : m'.orphanPool = behind.orphanPool)
    (blockchain : m'.blockchain = (stamp work (rest.take count)).foldl .addBlock (behind.blockchain.cut shared.length)) :
    Placed P given (shared ++ rest.take count) m' := by
  have rooted : Rooted P given (shared ++ rest.take count) := by
    have beginning := front.rooted.take (shared.length + count)
    rwa [List.take_length_add_append] at beginning
  have taken : (shared ++ others).take shared.length = shared := List.take_left
  have inside : shared.length ≤ (shared ++ others).length := by simp
  rw [foldl_addBlock_stamp] at blockchain
  refine ⟨regular,?_,rooted,?_,by rw [pool]; exact back.pool⟩
  · have follows := back.follows.reorganized inside (rest.take count)
    rwa [taken,← blockchain] at follows
  · rw [blockchain]
    exact back.follows.indexed_reorganized back.indexed distinct inside (by rwa [taken])

/-- A round that gains leaves the beginning of the chain ahead, up to the last
    block of the answer. -/
theorem placed_round (distinct : Distinct P given) (front : Placed P given (shared ++ rest) ahead)
    (back : Placed P given (shared ++ others) behind) (apart : ∀ block ∈ rest, block ∉ shared ++ others)
    (valid : ValidPath P behind.params now (shared ++ rest)) (gains : Gains ahead.blockchain behind.blockchain) :
    ∃ height, height ∈ upperBounds { h | h ∈ sampled behind.blockchain.size ∧
        SharedAt ahead.blockchain behind.blockchain h } ∧
      Placed P given ((shared ++ rest).take (height + maxBlocksPerResponse)) (round P ahead behind now) ∧
      (round P ahead behind now).params = behind.params := by
  obtain ⟨locator,height,sent,matched,greatest⟩ := locator_match distinct front back apart
  have low : height ≤ shared.length := (sharedAt_iff distinct front back apart).mp greatest.1.2
  have grows := (work_grows_parted distinct front back apart valid).mpr gains
  have answered : catchUp P ahead behind now = behind.adoptBranch P now
      ((ahead.blockchain.blocks.drop (height + 1)).take maxBlocksPerResponse) := by
    rw [catchUp,sent]
    simp only [ChainManager.blocksAfterLocator,matched]
  refine ⟨height,greatest.2,?_⟩
  rw [round]
  rw [answered] at grows ⊢
  by_cases nothing : rest.take (maxBlocksPerResponse - (shared.length - height)) = []
  · have dropped := unknown_part distinct front back apart low maxBlocksPerResponse
    rw [unknownPart,nothing] at dropped
    rw [adoptBranch_known dropped] at grows
    exact absurd grows (UInt64.lt_irrefl _)
  obtain ⟨ancestor,at_height,requested⟩ := requestedFork_answer distinct front back apart valid low nothing
  cases adoptBranch_cases back.toRegular now
      ((ahead.blockchain.blocks.drop (height + 1)).take maxBlocksPerResponse) with
  | refused weak run =>
    rw [run] at grows
    exact absurd grows (UInt64.lt_irrefl _)
  | unverifiable fork that e heavier bad run =>
    rw [run] at grows
    exact absurd grows (UInt64.lt_irrefl _)
  | reorganized fork that base m' reorg ledger run =>
    rw [requested] at that
    obtain rfl := Option.some.inj (Except.ok.inj that)
    have found : behind.blockchain.findHeight ancestor.hash = some shared.length :=
      (back.indexed _ _).mpr (by rw [at_height]; rfl)
    obtain rfl : shared.length = base := Option.some.inj (found.symm.trans reorg.found)
    have regular := regular_after back.toRegular
      (.adoptBranch now ((ahead.blockchain.blocks.drop (height + 1)).take maxBlocksPerResponse))
    rw [ChainManager.after,run] at regular
    rw [run]
    refine ⟨?_,reorg.params⟩
    have placed := placed_reorganized distinct front back regular reorg.orphanPool reorg.blockchain
    have some_left : 0 < maxBlocksPerResponse - (shared.length - height) := by
      by_contra none_left
      exact nothing (by rw [Nat.eq_zero_of_not_pos none_left,List.take_zero])
    have split : height + maxBlocksPerResponse = shared.length + (maxBlocksPerResponse - (shared.length - height)) := by
      omega
    rwa [split,List.take_length_add_append]

/-! ### The beginning of a chain -/

variable {full : List Block} {count : Nat}

/-- A node that has a beginning of the chain ahead shares its tip, which it
    samples. -/
theorem tip_greatest (distinct : Distinct P given) (front : Placed P given (shared ++ rest) ahead)
    (back : Placed P given (shared ++ []) behind) (apart : ∀ block ∈ rest, block ∉ shared ++ []) :
    IsGreatest { h | h ∈ sampled behind.blockchain.size ∧ SharedAt ahead.blockchain behind.blockchain h }
      shared.length := by
  have size := back.follows.size_eq
  rw [List.append_nil] at size
  refine ⟨⟨Locators.mem_sampled_of_high (by omega) (by omega),(sharedAt_iff distinct front back apart).mpr le_rfl⟩,?_⟩
  exact fun h member => (sharedAt_iff distinct front back apart).mp member.2

/-- It gains, unless it has all of the chain. -/
theorem gains_of_beginning (distinct : Distinct P given) (front : Placed P given (shared ++ rest) ahead)
    (back : Placed P given (shared ++ []) behind) (apart : ∀ block ∈ rest, block ∉ shared ++ []) (more : rest ≠ [])
    (light : pathWork (shared ++ rest) < 2 ^ 64) : Gains ahead.blockchain behind.blockchain := by
  obtain ⟨next,others,rfl⟩ := List.exists_cons_of_ne_nil more
  have size := front.follows.size_eq
  rw [List.length_append,List.length_cons] at size
  generalize index_eq : min (shared.length + maxBlocksPerResponse) (ahead.blockchain.size - 1) = index
  have long : shared.length < index := by
    rw [← index_eq,maxBlocksPerResponse]
    omega
  have inside : index < ahead.blockchain.blocks.length := by
    show index < ahead.blockchain.size
    omega
  have there := List.getElem?_eq_getElem inside
  refine ⟨shared.length,_,tip_greatest distinct front back apart,by rw [index_eq]; exact there,
    (lacks_iff distinct front back apart there).mpr long,?_⟩
  -- The path to the block has the tip's path and at least one block more.
  obtain ⟨extra,taken⟩ : ∃ extra, (shared ++ next :: others).take index = shared ++ next :: extra := by
    obtain ⟨left,rfl⟩ := Nat.exists_eq_add_of_lt long
    refine ⟨others.take left,?_⟩
    rw [Nat.add_assoc,List.take_length_add_append,List.take_succ_cons]
  have split : pathWork (shared ++ next :: others) =
      pathWork (shared ++ next :: extra) + pathWork ((shared ++ next :: others).drop index) := by
    rw [← taken,← pathWork_append,List.take_append_drop]
  have work := (front.follows.getElem? there).2
  rw [taken] at work
  rw [List.append_nil] at back
  have first : pathWork (shared ++ next :: extra) = pathWork shared + (next.blockWork.toNat + pathWork extra) := by
    rw [pathWork_append]
    rfl
  rw [UInt64.lt_iff_toNat_lt,back.follows.work (by omega),work,foldl_work (by rw [UInt64.toNat_zero]; omega),
    UInt64.toNat_zero]
  have := next.blockWork_pos
  omega

/-- A node with the same chain learns nothing. -/
theorem round_idle (distinct : Distinct P given) (front : Placed P given full ahead)
    (back : Placed P given full behind) : round P ahead behind now = behind := by
  rw [← List.append_nil full] at front back
  have apart : ∀ block ∈ ([] : List Block), block ∉ full ++ [] := nofun
  obtain ⟨locator,height,sent,matched,greatest⟩ := locator_match distinct front back apart
  have low : height ≤ full.length := (sharedAt_iff distinct front back apart).mp greatest.1.2
  have dropped := unknown_part distinct front back apart low maxBlocksPerResponse
  rw [unknownPart,List.take_nil] at dropped
  rw [round,catchUp,sent]
  simp only [ChainManager.blocksAfterLocator,matched]
  rw [adoptBranch_known dropped]

/-- One more round from the beginning of the chain ahead. -/
theorem round_beginning (distinct : Distinct P given) (front : Placed P given full ahead)
    (back : Placed P given (full.take count) behind) (valid : ValidPath P behind.params now full)
    (light : pathWork full < 2 ^ 64) : ∃ count', min full.length (count + maxBlocksPerResponse) ≤ count' ∧
      Placed P given (full.take count') (round P ahead behind now) ∧
      (round P ahead behind now).params = behind.params := by
  by_cases more : full.drop count = []
  · have long := List.drop_eq_nil_iff.mp more
    rw [List.take_of_length_le long] at back
    refine ⟨full.length,min_le_left _ _,?_⟩
    rw [round_idle distinct front back,List.take_length]
    exact ⟨back,rfl⟩
  · have short : count < full.length := by
      by_contra long
      exact more (List.drop_eq_nil_iff.mpr (by omega))
    have length : (full.take count).length = count := List.length_take_of_le short.le
    have apart : ∀ block ∈ full.drop count, block ∉ full.take count ++ [] := by
      have nodup := distinct.nodup front.rooted
      rw [← List.take_append_drop count full] at nodup
      rw [List.append_nil]
      exact fun block later earlier => List.disjoint_of_nodup_append nodup earlier later
    rw [← List.append_nil (full.take count)] at back
    rw [← List.take_append_drop count full] at front valid light
    have gains := gains_of_beginning distinct front back apart more light
    have greatest := tip_greatest distinct front back apart
    obtain ⟨height,bounds,placed,params⟩ := placed_round distinct front back apart valid gains
    have high := bounds greatest.1
    rw [List.take_append_drop] at placed
    exact ⟨_,by omega,placed,params⟩

theorem rounds_beginning (distinct : Distinct P given) (front : Placed P given full ahead)
    (light : pathWork full < 2 ^ 64) {nows : List UInt64} (back : Placed P given (full.take count) behind)
    (valid : ∀ now ∈ nows, ValidPath P behind.params now full)
    (enough : full.length ≤ count + maxBlocksPerResponse * nows.length) :
    Placed P given full (run (round P ahead) behind nows) := by
  induction nows generalizing behind count with
  | nil =>
    rw [List.length_nil,Nat.mul_zero,Nat.add_zero] at enough
    rwa [List.take_of_length_le enough] at back
  | cons now later ih =>
    obtain ⟨count',grown,placed,params⟩ :=
      round_beginning distinct front back (valid now List.mem_cons_self) light
    refine ih placed (fun other member => ?_) ?_
    · rw [params]
      exact valid other (List.mem_cons_of_mem _ member)
    · rw [List.length_cons,Nat.mul_succ] at enough
      omega

end

/-- Between any two reachable nodes whose blocks are told apart by their hashes:
    where the blocks ahead are valid for the node behind whenever it asks, their
    work fits into 64 bits and the first answer gains, one round for every
    `MAX_BLOCKS_PER_RESPONSE` blocks ahead makes the chains the same. -/
theorem download_completes {P : Primitives} {given : List Block} {size size' : Nat} {params params' : ConsensusParams}
    {storage storage' : Option Storage} {calls calls' : List Call} {now : UInt64} {later : List UInt64}
    {ahead behind : ChainManager} (distinct : Distinct P given)
    (front : ahead = run (ChainManager.after P) (.new P size params storage) calls)
    (back : behind = run (ChainManager.after P) (.new P size' params' storage') calls')
    (supplied : Along (ChainManager.after P) (Supplied given) (.new P size params storage) calls)
    (supplied' : Along (ChainManager.after P) (Supplied given) (.new P size' params' storage') calls')
    (valid : ∀ time ∈ now :: later, ValidPath P behind.params time (ahead.blockchain.blocks.drop 1))
    (light : pathWork (ahead.blockchain.blocks.drop 1) < 2 ^ 64)
    (gains : Gains ahead.blockchain behind.blockchain)
    (enough : ahead.blockchain.size - 1 ≤ maxBlocksPerResponse * (later.length + 1)) :
    (run (round P ahead) behind (now :: later)).blockchain = ahead.blockchain := by
  subst front back
  obtain ⟨full,front⟩ := placed_run distinct supplied
  obtain ⟨path,back⟩ := placed_run distinct supplied'
  have valid := fun time member => front.follows.valid_iff.mp (valid time member)
  rw [front.follows.size_eq,Nat.add_sub_cancel,Nat.mul_succ] at enough
  rw [pathWork_drop front.follows] at light
  obtain ⟨shared,rest,others,rfl,rfl,apart⟩ := distinct.parting front.rooted back.rooted
  obtain ⟨height,-,placed,params⟩ :=
    placed_round distinct front back apart (valid now List.mem_cons_self) gains
  have reached := rounds_beginning distinct front light placed
    (fun time (member : time ∈ later) => by rw [params]; exact valid time (List.mem_cons_of_mem _ member)) (by omega)
  exact reached.indexed.ext front.indexed (reached.follows.trans front.follows.symm)

set_option maxRecDepth 20000 in
open LongChains in
/-- A new node gets 4001 blocks in three rounds. -/
theorem download_completes_long :
    (run (round plain (longNode 1 4001)) (longNode 2 0) [late.now,late.now,late.now]).blockchain =
      (longNode 1 4001).blockchain := by
  have distinct : Distinct plain (chain 1 4001 ++ chain 2 0) := chains_distinct (by omega) (by omega)
  have front : Placed plain (chain 1 4001 ++ chain 2 0) ([] ++ chain 1 4001) (longNode 1 4001) := by
    rw [List.nil_append]
    exact placed_longNode 1 (by omega) distinct fun _ member => List.mem_append_left _ member
  have back : Placed plain (chain 1 4001 ++ chain 2 0) ([] ++ []) (longNode 2 0) :=
    placed_longNode 2 (by omega) distinct fun _ member => List.mem_append_right _ member
  have more : chain 1 4001 ≠ [] := List.ne_nil_of_length_pos (by rw [chain_length]; decide)
  have light : pathWork ([] ++ chain 1 4001) < 2 ^ 64 := by rw [List.nil_append,chain_work]; decide
  have built : ∀ nonce length, longNode nonce length = run (ChainManager.after plain) (.new plain 1000 testParams none)
      (submissions late (chain nonce length)) := fun _ _ => rfl
  refine @download_completes plain (chain 1 4001 ++ chain 2 0) 1000 1000 testParams testParams none none
    (submissions late (chain 1 4001)) (submissions late (chain 2 0)) late.now [late.now,late.now] (longNode 1 4001)
    (longNode 2 0) distinct (built 1 4001) (built 2 0)
    (supplied_submissions late fun _ member => List.mem_append_left _ member)
    (supplied_submissions late fun _ member => List.mem_append_right _ member) ?_ ?_
    (gains_of_beginning distinct front back (by simp) more light) ?_
  · intro time member
    obtain rfl : time = late.now := by simpa using member
    rw [(loaded_longNode 2 (show 0 ≤ 10000 by omega)).params_eq,front.follows.valid_iff]
    exact chain_valid (by omega)
  · rwa [pathWork_drop front.follows]
  · rw [front.follows.size_eq,List.nil_append,chain_length]
    decide

end ForgeChain.Download
