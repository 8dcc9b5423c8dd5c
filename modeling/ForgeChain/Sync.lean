import ForgeChain.LongChains

/-!
One round of catching up between two nodes: the node behind sends its locator,
the node ahead answers with the blocks above the first one it knows of it, and
the node behind adopts what it can use. The answer is cut after
`MAX_BLOCKS_PER_RESPONSE` blocks and has to outweigh the whole chain at once, so
the tip gains work exactly where the last block of the answer is unknown to the
node behind and has more work than its tip (`work_grows_iff`).
-/
namespace ForgeChain.Sync
open Runs Blockchain BlockTree Placement Samples

/-- `MAX_BLOCKS_PER_RESPONSE`. -/
def maxBlocksPerResponse : Nat := 2000

/-- A round in which one node catches up with another that is ahead of it. -/
def catchUp (P : Primitives) (ahead behind : ChainManager) (now : UInt64) : Except Exn Bool × ChainManager :=
  match behind.locator with
  | .error e => (.error e,behind)
  | .ok locator => behind.adoptBranch P now (ahead.blocksAfterLocator locator maxBlocksPerResponse)

/-- The heights that a locator samples of a chain, highest first. -/
def sampled (size : Nat) : List Nat := locatorHeights size 0 1 (size - 1) ++ [0]

/-- Two chains have the same block at a height. -/
def SharedAt (ahead behind : Blockchain) (height : Nat) : Prop :=
  ∃ block, ahead.blocks[height]? = some block ∧ behind.blocks[height]? = some block

/-- Counted from the highest sampled block that the chains share, the chain
    ahead has, as many blocks higher as an answer holds or else as its tip, a
    block that the chain behind lacks and that has more work than its tip. -/
def Gains (ahead behind : Blockchain) : Prop :=
  ∃ height last, IsGreatest { h | h ∈ sampled behind.size ∧ SharedAt ahead behind h } height ∧
    ahead.blocks[min (height + maxBlocksPerResponse) (ahead.size - 1)]? = some last ∧
    behind.hasBlock last.hash = false ∧ behind.latest.cumulativeWork < last.cumulativeWork

/-- What is above the shared blocks in an answer that starts at a height below
    them, with its work. -/
def unknownPart (shared rest : List Block) (height limit : Nat) : List Block :=
  stamp (shared.foldl (fun work block => work + block.blockWork) 0) (rest.take (limit - (shared.length - height)))

/-! ### The locator -/

/-- The gap between two heights never closes. -/
theorem wider_step (count : Nat) {step : Nat} (positive : 0 < step) :
    ∃ wide, (if count + 1 ≥ 10 then step * 2 else step) = wide ∧ 0 < wide :=
  ⟨_,rfl,by split <;> omega⟩

theorem mem_locatorHeights {fuel count step height h : Nat} (positive : 0 < step)
    (member : h ∈ locatorHeights fuel count step height) : 0 < h ∧ h ≤ height := by
  induction fuel generalizing count step height with
  | zero => cases member
  | succ fuel ih =>
    obtain ⟨wide,wide_eq,wider⟩ := wider_step count positive
    simp only [locatorHeights,wide_eq] at member
    split at member
    · cases member
    · rename_i above
      rcases List.mem_cons.mp member with rfl | later
      · omega
      · split at later
        · cases later
        · have := ih wider later
          omega

theorem locatorHeights_sorted (fuel count height : Nat) {step : Nat} (positive : 0 < step) :
    (locatorHeights fuel count step height).Pairwise (· > ·) := by
  induction fuel generalizing count step height with
  | zero => exact .nil
  | succ fuel ih =>
    obtain ⟨wide,wide_eq,wider⟩ := wider_step count positive
    simp only [locatorHeights,wide_eq]
    split
    · exact .nil
    · rename_i above
      refine .cons ?_ ?_
      · intro h later
        split at later
        · cases later
        · have := mem_locatorHeights wider later
          omega
      · split
        · exact .nil
        · exact ih _ _ wider

theorem sampled_sorted (size : Nat) : (sampled size).Pairwise (· > ·) := by
  rw [sampled,List.pairwise_append]
  refine ⟨locatorHeights_sorted _ _ _ Nat.one_pos,List.pairwise_singleton _ _,?_⟩
  intro h member low is_low
  obtain rfl := List.mem_singleton.mp is_low
  exact (mem_locatorHeights Nat.one_pos member).1

theorem sampled_below {size h : Nat} (positive : 0 < size) (member : h ∈ sampled size) : h < size := by
  rcases List.mem_append.mp member with high | low
  · have := mem_locatorHeights Nat.one_pos high
    omega
  · rw [List.mem_singleton.mp low]
    exact positive

/-- Looking hashes of a chain up is looking its blocks up. -/
theorem findSome?_hashes {chain : Blockchain} (find : HashBytes → Option Nat) {heights : List Nat}
    (below : ∀ h ∈ heights, h < chain.size) :
    ∃ hashes, heights.mapM (fun h => (chain.blockAt h).map Block.hash) = .ok hashes ∧
      hashes.findSome? find = heights.findSome? fun h => chain.blocks[h]?.bind fun block => find block.hash := by
  induction heights with
  | nil => exact ⟨[],rfl,rfl⟩
  | cons height rest ih =>
    obtain ⟨first,later⟩ := List.forall_mem_cons.mp below
    obtain ⟨hashes,read,found⟩ := ih later
    obtain ⟨block,there⟩ := blockAt_below first
    refine ⟨block.hash :: hashes,?_,?_⟩
    · rw [List.mapM_cons,read,there]
      rfl
    · simp only [List.findSome?_cons,blockAt_eq_ok.mp there,Option.bind_some,found]

/-- Of falling heights the first that is found is the greatest. -/
theorem findSome?_greatest {heights : List Nat} {find : Nat → Option Nat} {holds : Nat → Prop}
    (sorted : heights.Pairwise (· > ·)) (finds : ∀ h ∈ heights, ∀ k, find h = some k ↔ k = h ∧ holds h)
    (some_holds : ∃ h ∈ heights, holds h) :
    ∃ height, heights.findSome? find = some height ∧ IsGreatest { h | h ∈ heights ∧ holds h } height := by
  induction heights with
  | nil =>
    obtain ⟨h,member,-⟩ := some_holds
    cases member
  | cons first rest ih =>
    obtain ⟨above,sorted⟩ := List.pairwise_cons.mp sorted
    obtain ⟨here,later⟩ := List.forall_mem_cons.mp finds
    by_cases holds_first : holds first
    · refine ⟨first,by simp [(here first).mpr ⟨rfl,holds_first⟩],⟨by simp,holds_first⟩,?_⟩
      rintro h ⟨member,-⟩
      rcases List.mem_cons.mp member with rfl | lower
      · exact le_rfl
      · exact (above h lower).le
    · have missed : find first = none := by
        cases found : find first with
        | none => rfl
        | some k => exact absurd ((here k).mp found).2 holds_first
      obtain ⟨h,member,holds_h⟩ := some_holds
      have lower : h ∈ rest := by
        rcases List.mem_cons.mp member with rfl | lower
        · exact absurd holds_h holds_first
        · exact lower
      obtain ⟨height,found,⟨inside,holds_height⟩,greatest⟩ := ih sorted later ⟨h,lower,holds_h⟩
      refine ⟨height,by simp [missed,found],⟨List.mem_cons_of_mem _ inside,holds_height⟩,?_⟩
      rintro k ⟨member,holds_k⟩
      rcases List.mem_cons.mp member with rfl | lower
      · exact absurd holds_k holds_first
      · exact greatest ⟨lower,holds_k⟩

/-! ### What an answer does -/

section
variable {P : Primitives} {m : ChainManager} {now : UInt64} {blocks : List Block} {fork : ForkChain} {height : Nat}

/-- Known blocks are no branch. -/
theorem adoptBranch_known (known : blocks.dropWhile (fun block => m.blockchain.hasBlock block.hash) = []) :
    m.adoptBranch P now blocks = (.ok false,m) := by
  rw [ChainManager.adoptBranch,ChainManager.requestedFork,known]

/-- The tip gains work from a signed branch exactly where the branch is heavier. -/
theorem work_adoptBranch (regular : Regular P m) (requested : m.requestedFork P now blocks = .ok (some fork))
    (signed : ∀ tx ∈ transactionsOf fork.blocks, tx.Authentic P)
    (found : m.blockchain.findHeight fork.commonAncestor.hash = some height)
    (at_height : m.blockchain.blocks[height]? = some fork.commonAncestor) :
    m.blockchain.latest.cumulativeWork < (m.adoptBranch P now blocks).2.blockchain.latest.cumulativeWork ↔
      m.blockchain.latest.cumulativeWork < forkWork fork := by
  cases adoptBranch_cases regular now blocks with
  | refused weak run =>
    rw [run]
    refine ⟨fun grows => absurd grows (UInt64.lt_irrefl _),fun heavier => ?_⟩
    exact absurd ⟨decide_eq_true heavier,signed,found⟩ (weak fork height requested)
  | unverifiable other that e heavier bad run =>
    rw [requested] at that
    obtain rfl := Option.some.inj (Except.ok.inj that)
    rw [checkSignatures_true.mpr signed] at bad
    cases bad
  | reorganized other that base m' reorg ledger run =>
    rw [requested] at that
    obtain rfl := Option.some.inj (Except.ok.inj that)
    obtain rfl : base = height := Option.some.inj (reorg.found.symm.trans found)
    rw [run,reorg.blockchain,work_reorganized at_height]

end

/-! ### Two chains that part -/

section
variable {P : Primitives} {given shared rest others : List Block} {ahead behind : ChainManager} {now : UInt64}
  (distinct : Distinct P given) (front : Placed P given (shared ++ rest) ahead)
  (back : Placed P given (shared ++ others) behind) (apart : ∀ block ∈ rest, block ∉ shared ++ others)
include distinct front back apart

/-- Paths to the same hash are the same, and so are their heights. -/
theorem same_height {i j : Nat} (left : i ≤ (shared ++ rest).length) (right : j ≤ (shared ++ others).length)
    (same : endHash P ((shared ++ rest).take i) = endHash P ((shared ++ others).take j)) : i = j ∧ i ≤ shared.length := by
  have equal := distinct.unique (front.rooted.take i) (back.rooted.take j) same
  have lengths := congrArg List.length equal
  rw [List.length_take_of_le left,List.length_take_of_le right] at lengths
  refine ⟨lengths,?_⟩
  -- Above the shared blocks the path ahead would have a block of its own.
  by_contra above
  have there : shared.length < ((shared ++ rest).take i).length := by
    rw [List.length_take_of_le left]
    omega
  have own : ((shared ++ rest).take i)[shared.length] ∈ rest := by
    rw [List.getElem_take,List.getElem_append_right le_rfl]
    exact List.getElem_mem _
  have both : ((shared ++ rest).take i)[shared.length] ∈ (shared ++ others).take j := by
    rw [← equal]
    exact List.getElem_mem _
  exact apart _ own (List.mem_of_mem_take both)

theorem findHeight_iff {h k : Nat} {block : Block} (there : behind.blockchain.blocks[h]? = some block) :
    ahead.blockchain.findHeight block.hash = some k ↔ k = h ∧ h ≤ shared.length := by
  have inside := (List.getElem?_eq_some_iff.mp there).1
  have size := back.follows.size_eq
  unfold Blockchain.size at size
  have hash := (back.follows.getElem? there).1
  rw [front.indexed block.hash k]
  constructor
  · intro found
    obtain ⟨other,at_k,same⟩ := Option.map_eq_some_iff.mp found
    have k_inside := (List.getElem?_eq_some_iff.mp at_k).1
    have front_size := front.follows.size_eq
    unfold Blockchain.size at front_size
    rw [(front.follows.getElem? at_k).1,hash] at same
    obtain ⟨rfl,low⟩ := same_height distinct front back apart (by omega) (by omega) same
    exact ⟨rfl,low⟩
  · rintro ⟨rfl,low⟩
    have k_inside : k < ahead.blockchain.blocks.length := by
      have front_size := front.follows.size_eq
      unfold Blockchain.size at front_size
      rw [front_size,List.length_append]
      omega
    have at_k := List.getElem?_eq_getElem k_inside
    rw [at_k,Option.map_some,(front.follows.getElem? at_k).1,hash,List.take_append_of_le_length low,
      List.take_append_of_le_length low]

theorem sharedAt_iff {h : Nat} : SharedAt ahead.blockchain behind.blockchain h ↔ h ≤ shared.length := by
  constructor
  · rintro ⟨block,at_front,at_back⟩
    have found : ahead.blockchain.findHeight block.hash = some h := (front.indexed _ _).mpr (by rw [at_front]; rfl)
    exact ((findHeight_iff distinct front back apart at_back).mp found).2
  · intro low
    -- Up to there both chains have the shared blocks with the same work.
    have part : ∀ {chain : Blockchain} {more : List Block}, Follows P chain (shared ++ more) →
        chain.blocks[h]? = (Block.genesis P :: stamp 0 shared)[h]? := by
      intro chain more follows
      rw [follows,stamp_append,← List.cons_append,List.getElem?_append_left (by simp; omega)]
    have inside : h < (Block.genesis P :: stamp 0 shared).length := by
      simp
      omega
    exact ⟨_,(part front.follows).trans (List.getElem?_eq_getElem inside),
      (part back.follows).trans (List.getElem?_eq_getElem inside)⟩

/-- The node ahead finds the highest sampled block that the chains share. -/
theorem locator_match :
    ∃ locator height, behind.locator = .ok locator ∧ findLocatorMatch ahead.blockchain locator = some height ∧
      IsGreatest { h | h ∈ sampled behind.blockchain.size ∧ SharedAt ahead.blockchain behind.blockchain h } height := by
  have below : ∀ h ∈ sampled behind.blockchain.size, h < behind.blockchain.size :=
    fun h member => sampled_below behind.blockchain.size_pos member
  obtain ⟨locator,sent,found⟩ := findSome?_hashes ahead.blockchain.findHeight below
  have finds : ∀ h ∈ sampled behind.blockchain.size, ∀ k,
      (behind.blockchain.blocks[h]?.bind fun block => ahead.blockchain.findHeight block.hash) = some k ↔
        k = h ∧ SharedAt ahead.blockchain behind.blockchain h := by
    intro h member k
    have there := List.getElem?_eq_getElem (below h member)
    rw [there,Option.bind_some,findHeight_iff distinct front back apart there,sharedAt_iff distinct front back apart]
  have root : SharedAt ahead.blockchain behind.blockchain 0 :=
    (sharedAt_iff distinct front back apart).mpr (Nat.zero_le _)
  obtain ⟨height,first,greatest⟩ := findSome?_greatest (sampled_sorted _) finds ⟨0,by simp [sampled],root⟩
  exact ⟨locator,height,sent,by rw [findLocatorMatch,found,first],greatest⟩

/-- What the node behind lacks of an answer is what comes above the shared
    blocks. -/
theorem unknown_part {height : Nat} (low : height ≤ shared.length) (limit : Nat) :
    ((ahead.blockchain.blocks.drop (height + 1)).take limit).dropWhile
        (fun block => behind.blockchain.hasBlock block.hash) = unknownPart shared rest height limit := by
  have known : ∀ block ∈ stamp 0 shared, behind.blockchain.hasBlock block.hash = true := by
    intro block member
    obtain ⟨plain,inside,same⟩ := mem_stamp member
    have hash : block.hash = plain.hash := by rw [same]
    have on_path : plain ∈ shared ++ others := List.mem_append_left _ inside
    rw [hash,back.follows.hasBlock_iff back.indexed distinct back.rooted (back.rooted.2 plain on_path)]
    exact on_path
  have lacking : ∀ work, ∀ block ∈ stamp work rest, ¬ behind.blockchain.hasBlock block.hash = true := by
    intro work block member
    obtain ⟨plain,inside,same⟩ := mem_stamp member
    have hash : block.hash = plain.hash := by rw [same]
    rw [hash,back.follows.hasBlock_iff back.indexed distinct back.rooted
      (front.rooted.2 plain (List.mem_append_right _ inside))]
    exact apart plain inside
  rw [front.follows,List.drop_succ_cons,stamp_append,List.drop_append_of_le_length (by simpa using low),
    List.take_append,List.dropWhile_append_of_pos fun block member =>
      known block (List.mem_of_mem_drop (List.mem_of_mem_take member)),
    List.length_drop,stamp_length,take_stamp]
  show (unknownPart shared rest height limit).dropWhile _ = _
  cases part : unknownPart shared rest height limit with
  | nil => rfl
  | cons block more =>
    have member : block ∈ unknownPart shared rest height limit := by simp [part]
    rw [unknownPart,← take_stamp] at member
    exact List.dropWhile_cons_of_neg (lacking _ block (List.mem_of_mem_take member))

/-- The node behind lacks exactly the blocks above the shared ones. -/
theorem lacks_iff {i : Nat} {block : Block} (there : ahead.blockchain.blocks[i]? = some block) :
    behind.blockchain.hasBlock block.hash = false ↔ shared.length < i := by
  rw [← Bool.not_eq_true,← not_le,not_iff_not,← sharedAt_iff distinct front back apart,
    back.indexed.hasBlock_iff]
  constructor
  · rintro ⟨other,member,same⟩
    obtain ⟨j,at_j⟩ := List.mem_iff_getElem?.mp member
    have found : ahead.blockchain.findHeight other.hash = some i := (front.indexed _ _).mpr (by rw [there,same]; rfl)
    obtain ⟨rfl,low⟩ := (findHeight_iff distinct front back apart at_j).mp found
    exact (sharedAt_iff distinct front back apart).mpr low
  · rintro ⟨other,at_front,at_back⟩
    rw [there] at at_front
    obtain rfl := Option.some.inj at_front
    exact ⟨block,List.mem_of_getElem? at_back,rfl⟩

/-- The unknown part of an answer is a branch that is valid as a whole. -/
theorem requestedFork_answer (valid : ValidPath P behind.params now (shared ++ rest)) {height : Nat}
    (low : height ≤ shared.length) {limit : Nat} (unknown : rest.take (limit - (shared.length - height)) ≠ []) :
    ∃ ancestor, behind.blockchain.blocks[shared.length]? = some ancestor ∧
      behind.requestedFork P now ((ahead.blockchain.blocks.drop (height + 1)).take limit) =
        .ok (some ⟨unknownPart shared rest height limit,ancestor⟩) := by
  unfold unknownPart
  generalize branch_eq : rest.take (limit - (shared.length - height)) = branch at unknown
  have inside : shared.length < behind.blockchain.size := by
    rw [back.follows.size_eq,List.length_append]
    omega
  have at_height := List.getElem?_eq_getElem inside
  generalize behind.blockchain.blocks[shared.length] = ancestor at at_height
  have taken : (shared ++ others).take shared.length = shared := by simp
  have hash := (back.follows.getElem? at_height).1
  rw [taken] at hash
  have found : behind.blockchain.findHeight ancestor.hash = some shared.length :=
    (back.indexed _ _).mpr (by rw [at_height]; rfl)
  have linked : Linked ancestor.hash branch := by
    rw [hash,← branch_eq]
    exact Linked.take (rooted_append.mp front.rooted).2.1 _
  have valid_branch : ValidPath P behind.params now ((shared ++ others).take shared.length ++
      stamp (shared.foldl (fun work block => work + block.blockWork) 0) branch) := by
    have split : shared ++ rest = (shared ++ branch) ++ rest.drop (limit - (shared.length - height)) := by
      rw [List.append_assoc,← branch_eq,List.take_append_drop]
    rw [split] at valid
    refine (valid.start _).of_bare ?_
    rw [taken,List.map_append,List.map_append,stamp_map fun _ _ => rfl]
  refine ⟨ancestor,at_height,?_⟩
  obtain ⟨first,more,branch_cons⟩ := List.exists_cons_of_ne_nil unknown
  have dropped := unknown_part distinct front back apart low limit
  rw [unknownPart,branch_eq] at dropped
  generalize work_eq : shared.foldl (fun work block => work + block.blockWork) 0 = work at dropped valid_branch ⊢
  obtain ⟨len,long,cut⟩ := truncate_keeps (P := P) back.sound ⟨stamp work branch,ancestor⟩ now found
    (by simp [branch_cons]) le_rfl
    (fun i block _ at_i => valid_branch.fits_branch back.follows (by simp) at_i)
  rw [List.take_of_length_le long] at cut
  have stamped : Linked ancestor.hash (stamp work branch) := linked_stamp.mpr linked
  have chained := stamped.isChain
  have parent : behind.blockchain.findHeight first.prevHash = some shared.length := by
    rw [branch_cons] at linked
    rw [linked.1,found]
  rw [ChainManager.requestedFork,dropped]
  rw [branch_cons] at cut chained ⊢
  simp only [stamp] at cut chained ⊢
  simp [parent,chained,blockAt_eq_ok.mpr at_height,bind,Except.bind,cut]

omit distinct apart in
/-- The unknown part of an answer has the work that its last block has ahead. -/
theorem forkWork_unknownPart {height limit : Nat} {ancestor last : Block} (low : height ≤ shared.length)
    (at_height : behind.blockchain.blocks[shared.length]? = some ancestor)
    (at_end : ahead.blockchain.blocks[min (height + limit) (ahead.blockchain.size - 1)]? = some last)
    (long : shared.length < min (height + limit) (ahead.blockchain.size - 1)) :
    forkWork ⟨unknownPart shared rest height limit,ancestor⟩ = last.cumulativeWork := by
  have size := front.follows.size_eq
  rw [List.length_append] at size
  have taken : (shared ++ others).take shared.length = shared := by simp
  have work := (back.follows.getElem? at_height).2
  rw [taken] at work
  rw [forkWork,work,unknownPart,foldl_work_stamp,← List.foldl_append,(front.follows.getElem? at_end).2]
  congr 1
  rw [List.take_append,List.take_of_length_le (l := shared) (by omega),List.append_cancel_left_eq,
    List.take_eq_take_iff]
  omega

theorem work_grows_parted (valid : ValidPath P behind.params now (shared ++ rest)) :
    behind.blockchain.latest.cumulativeWork < (catchUp P ahead behind now).2.blockchain.latest.cumulativeWork ↔
      Gains ahead.blockchain behind.blockchain := by
  obtain ⟨locator,height,sent,matched,greatest⟩ := locator_match distinct front back apart
  have low : height ≤ shared.length := (sharedAt_iff distinct front back apart).mp greatest.1.2
  have answered : catchUp P ahead behind now = behind.adoptBranch P now
      ((ahead.blockchain.blocks.drop (height + 1)).take maxBlocksPerResponse) := by
    rw [catchUp,sent]
    simp only [ChainManager.blocksAfterLocator,matched]
  have size := front.follows.size_eq
  rw [List.length_append] at size
  have inside : min (height + maxBlocksPerResponse) (ahead.blockchain.size - 1) < ahead.blockchain.size := by omega
  have at_end := List.getElem?_eq_getElem inside
  generalize ahead.blockchain.blocks[min (height + maxBlocksPerResponse) (ahead.blockchain.size - 1)] = last at at_end
  have gains_iff : Gains ahead.blockchain behind.blockchain ↔
      behind.blockchain.hasBlock last.hash = false ∧ behind.blockchain.latest.cumulativeWork < last.cumulativeWork := by
    constructor
    · rintro ⟨other,block,greatest',there,lacks,heavier⟩
      obtain rfl := greatest'.unique greatest
      rw [there] at at_end
      obtain rfl := Option.some.inj at_end
      exact ⟨lacks,heavier⟩
    · rintro ⟨lacks,heavier⟩
      exact ⟨height,last,greatest,at_end,lacks,heavier⟩
  rw [gains_iff,answered,lacks_iff distinct front back apart at_end]
  by_cases nothing : rest.take (maxBlocksPerResponse - (shared.length - height)) = []
  · -- The answer ends within the shared blocks.
    have dropped := unknown_part distinct front back apart low maxBlocksPerResponse
    rw [unknownPart,nothing] at dropped
    have short : ¬ shared.length < min (height + maxBlocksPerResponse) (ahead.blockchain.size - 1) := by
      rcases List.take_eq_nil_iff.mp nothing with none_left | empty
      · omega
      · rw [empty,List.length_nil] at size
        omega
    rw [adoptBranch_known dropped]
    exact ⟨fun grows => absurd grows (UInt64.lt_irrefl _),fun both => absurd both.1 short⟩
  · obtain ⟨ancestor,at_height,requested⟩ := requestedFork_answer distinct front back apart valid low nothing
    have positive : 0 < (rest.take (maxBlocksPerResponse - (shared.length - height))).length :=
      List.length_pos_iff.mpr nothing
    rw [List.length_take] at positive
    have long : shared.length < min (height + maxBlocksPerResponse) (ahead.blockchain.size - 1) := by omega
    have signed : ∀ tx ∈ transactionsOf (unknownPart shared rest height maxBlocksPerResponse), tx.Authentic P := by
      intro tx member
      rw [unknownPart,transactionsOf_stamp] at member
      exact valid.rest.1 tx (mem_transactionsOf_take member)
    have found : behind.blockchain.findHeight ancestor.hash = some shared.length :=
      (back.indexed _ _).mpr (by rw [at_height]; rfl)
    rw [work_adoptBranch back.toRegular requested signed found at_height,
      forkWork_unknownPart front back low at_height at_end long]
    exact ⟨fun heavier => ⟨long,heavier⟩,And.right⟩

end

/-- Between any two reachable nodes whose blocks are told apart by their hashes,
    and where the blocks ahead are valid for the node behind, a round of catching
    up brings the tip behind more work exactly where the answer gains. -/
theorem work_grows_iff {P : Primitives} {given : List Block} {size size' : Nat} {params params' : ConsensusParams}
    {storage storage' : Option Storage} {calls calls' : List Call} {now : UInt64} (distinct : Distinct P given)
    (supplied : Along (ChainManager.after P) (Supplied given) (.new P size params storage) calls)
    (supplied' : Along (ChainManager.after P) (Supplied given) (.new P size' params' storage') calls') :
    let ahead := run (ChainManager.after P) (.new P size params storage) calls
    let behind := run (ChainManager.after P) (.new P size' params' storage') calls'
    ValidPath P behind.params now (ahead.blockchain.blocks.drop 1) →
      (behind.blockchain.latest.cumulativeWork < (catchUp P ahead behind now).2.blockchain.latest.cumulativeWork ↔
        Gains ahead.blockchain behind.blockchain) := by
  intro ahead behind valid
  obtain ⟨path,front⟩ := placed_run distinct supplied
  obtain ⟨path',back⟩ := placed_run distinct supplied'
  obtain ⟨shared,rest,others,rfl,rfl,apart⟩ := distinct.parting front.rooted back.rooted
  exact work_grows_parted distinct front back apart (front.follows.valid_iff.mp valid)

theorem work_grows_plainA :
    (run (ChainManager.after sample) start (submissions reading [])).blockchain.latest.cumulativeWork <
        (catchUp sample (run (ChainManager.after sample) start (submissions reading [plainA]))
          (run (ChainManager.after sample) start (submissions reading [])) 2000).2.blockchain.latest.cumulativeWork ↔
      Gains (run (ChainManager.after sample) start (submissions reading [plainA])).blockchain
        (run (ChainManager.after sample) start (submissions reading [])).blockchain := by
  have distinct : Distinct sample [plainA] := ⟨by decide +kernel,by decide +kernel⟩
  have linked : Linked (Block.genesis sample).hash [plainA] := ⟨by decide +kernel,trivial⟩
  have valid : ValidPath sample testParams reading.now [plainA] := ValidPath.start [plainA2] plainA_valid
  have front : Loaded sample testParams [plainA] (run (ChainManager.after sample) start (submissions reading [plainA])) :=
    loaded_submissions linked valid
  have back : Loaded sample testParams [] (run (ChainManager.after sample) start (submissions reading [])) :=
    loaded_submissions trivial (ValidPath.start [plainA] valid)
  have supplied : Along (ChainManager.after sample) (Supplied [plainA]) start (submissions reading [plainA]) :=
    supplied_submissions reading fun _ member => member
  have supplied' : Along (ChainManager.after sample) (Supplied [plainA]) start (submissions reading []) := trivial
  have valid_ahead := front.follows.valid_iff.mpr valid
  rw [← back.params_eq] at valid_ahead
  unfold start at supplied supplied' valid_ahead ⊢
  exact work_grows_iff distinct supplied supplied' valid_ahead

/-- A node with a chain of a length that shares only the genesis block with the
    chains of other nonces. -/
def longNode (nonce : UInt32) (length : Nat) : ChainManager :=
  run (ChainManager.after LongChains.plain) (.new LongChains.plain 1000 testParams none)
    (submissions LongChains.late (LongChains.chain nonce length))

section
open LongChains

theorem loaded_longNode (nonce : UInt32) {length : Nat} (low : length ≤ 10000) :
    Loaded plain testParams (chain nonce length) (longNode nonce length) :=
  loaded_submissions (chain_linked nonce length) (chain_valid low)

theorem placed_longNode (nonce : UInt32) {length : Nat} (low : length ≤ 10000) {given : List Block}
    (distinct : Distinct plain given) (members : ∀ block ∈ chain nonce length, block ∈ given) :
    Placed plain given (chain nonce length) (longNode nonce length) := by
  obtain ⟨path,placed⟩ := placed_run (P := plain) distinct (supplied_submissions late members)
  have follows := (loaded_longNode nonce low).follows
  exact ⟨placed.toRegular,follows,⟨chain_linked nonce length,members⟩,placed.indexed,placed.pool⟩

theorem work_longNode (nonce : UInt32) {length : Nat} (low : length ≤ 10000) :
    (longNode nonce length).blockchain.latest.cumulativeWork.toNat = 16 * length := by
  rw [(loaded_longNode nonce low).follows.work (by rw [chain_work]; omega),chain_work]

/-- The node ahead has one block more, and none of them is shared: of its 2001
    blocks the answer has 2000, which is no more work than the node behind has. -/
theorem work_stalls :
    ValidPath plain (longNode 2 2000).params late.now ((longNode 1 2001).blockchain.blocks.drop 1) ∧
      (longNode 2 2000).blockchain.latest.cumulativeWork < (longNode 1 2001).blockchain.latest.cumulativeWork ∧
      ¬ (longNode 2 2000).blockchain.latest.cumulativeWork <
        (catchUp plain (longNode 1 2001) (longNode 2 2000) late.now).2.blockchain.latest.cumulativeWork := by
  have distinct : Distinct plain (chain 1 2001 ++ chain 2 2000) := chains_distinct (by omega) (by omega)
  have front : Placed plain (chain 1 2001 ++ chain 2 2000) ([] ++ chain 1 2001) (longNode 1 2001) := by
    rw [List.nil_append]
    exact placed_longNode 1 (by omega) distinct fun _ member => List.mem_append_left _ member
  have back : Placed plain (chain 1 2001 ++ chain 2 2000) ([] ++ chain 2 2000) (longNode 2 2000) := by
    rw [List.nil_append]
    exact placed_longNode 2 (by omega) distinct fun _ member => List.mem_append_right _ member
  have apart : ∀ block ∈ chain 1 2001, block ∉ [] ++ chain 2 2000 := by
    rw [List.nil_append]
    exact chains_apart (by decide) (by omega) (by omega)
  have params := (loaded_longNode 2 (show 2000 ≤ 10000 by omega)).params_eq
  have valid : ValidPath plain (longNode 2 2000).params late.now ([] ++ chain 1 2001) := by
    rw [params,List.nil_append]
    exact chain_valid (by omega)
  have ahead_work := work_longNode 1 (show 2001 ≤ 10000 by omega)
  have behind_work := work_longNode 2 (show 2000 ≤ 10000 by omega)
  refine ⟨front.follows.valid_iff.mpr valid,?_,?_⟩
  · rw [UInt64.lt_iff_toNat_lt]
    omega
  · rw [work_grows_parted distinct front back apart valid]
    rintro ⟨height,last,⟨⟨-,same⟩,-⟩,at_end,-,heavier⟩
    -- Only the genesis block is shared, so the answer ends at height 2000.
    have root : height = 0 := Nat.le_zero.mp ((sharedAt_iff distinct front back apart).mp same)
    have size := front.follows.size_eq
    rw [List.nil_append,chain_length] at size
    have last_height : min (height + maxBlocksPerResponse) ((longNode 1 2001).blockchain.size - 1) = 2000 := by
      rw [root,size]
      rfl
    rw [last_height] at at_end
    have work := (front.follows.getElem? at_end).2
    have taken : ([] ++ chain 1 2001).take 2000 = chain 1 2000 := by
      rw [List.nil_append,chain_succ,List.take_left' (chain_length 1 2000)]
    have last_work : last.cumulativeWork.toNat = 16 * 2000 := by
      rw [work,taken,foldl_work (by rw [chain_work]; decide),chain_work]
      rfl
    have := UInt64.lt_iff_toNat_lt.mp heavier
    omega

end

end ForgeChain.Sync
