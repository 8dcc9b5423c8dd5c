import ForgeChain.Calls
import ForgeChain.Samples

/-!
Trees of blocks over the genesis block. Where blocks are told apart by their
hashes, the blocks that lead from the genesis block to a hash are determined by
it, so a chain, an orphan pool and a set of blocks that a peer has can be
compared path by path.
-/
namespace ForgeChain.BlockTree
open Tally Blockchain Samples

section
variable (P : Primitives)

/-- A path from the genesis block through some blocks. -/
def Rooted (blocks path : List Block) : Prop :=
  Linked (Block.genesis P).hash path ∧ ∀ block ∈ path, block ∈ blocks

/-- The hash at the end of a path. -/
def endHash (path : List Block) : HashBytes := topHash (Block.genesis P).hash path

/-- Blocks are told apart by their hashes, also from the genesis block. -/
structure Distinct (blocks : List Block) : Prop where
  hashes : ∀ one ∈ blocks, ∀ other ∈ blocks, one.hash = other.hash → one = other
  root : ∀ block ∈ blocks, block.hash ≠ (Block.genesis P).hash

/-- The work of a path, as a number without bound. -/
def pathWork (path : List Block) : Nat := (path.map fun block => block.blockWork.toNat).sum

/-- The blocks of a list by height. -/
def viewOf (blocks : List Block) (height : Nat) : Except Exn Block := blocks[height]?.elim (.error .outOfRange) .ok

variable {P} {blocks more path left right : List Block} {block : Block}

@[simp] theorem endHash_nil : endHash P [] = (Block.genesis P).hash := rfl

@[simp] theorem endHash_concat (path : List Block) (block : Block) : endHash P (path ++ [block]) = block.hash := by
  simp [endHash,topHash]

theorem rooted_nil : Rooted P blocks [] := ⟨trivial,by simp⟩

theorem Rooted.mono (rooted : Rooted P blocks path) (subset : ∀ block ∈ blocks, block ∈ more) : Rooted P more path :=
  ⟨rooted.1,fun block member => subset block (rooted.2 block member)⟩

theorem rooted_append :
    Rooted P blocks (left ++ right) ↔
      Rooted P blocks left ∧ Linked (endHash P left) right ∧ ∀ block ∈ right, block ∈ blocks := by
  unfold Rooted endHash
  rw [linked_append,List.forall_mem_append]
  tauto

theorem rooted_concat :
    Rooted P blocks (path ++ [block]) ↔ Rooted P blocks path ∧ block.prevHash = endHash P path ∧ block ∈ blocks := by
  rw [rooted_append]
  simp [Linked]

/-- A path leads to each of its blocks. -/
theorem Rooted.upTo (rooted : Rooted P blocks (left ++ block :: right)) : Rooted P blocks (left ++ [block]) := by
  have split : left ++ block :: right = (left ++ [block]) ++ right := by simp
  rw [split,rooted_append] at rooted
  exact rooted.1

theorem Rooted.take (rooted : Rooted P blocks path) (len : Nat) : Rooted P blocks (path.take len) := by
  rw [← List.take_append_drop len path,rooted_append] at rooted
  exact rooted.1

/-! ### Paths are determined by their end -/

theorem Distinct.mono (distinct : Distinct P more) (subset : ∀ block ∈ blocks, block ∈ more) : Distinct P blocks :=
  ⟨fun one first other second => distinct.hashes one (subset one first) other (subset other second),
    fun block member => distinct.root block (subset block member)⟩

theorem Distinct.unique (distinct : Distinct P blocks) (first : Rooted P blocks left) (second : Rooted P blocks right)
    (same : endHash P left = endHash P right) : left = right := by
  induction left using List.reverseRecOn generalizing right with
  | nil =>
    cases right using List.reverseRecOn with
    | nil => rfl
    | append_singleton right block =>
      rw [endHash_nil,endHash_concat] at same
      exact absurd same.symm (distinct.root block (second.2 block (by simp)))
  | append_singleton left one ih =>
    cases right using List.reverseRecOn with
    | nil =>
      rw [endHash_nil,endHash_concat] at same
      exact absurd same (distinct.root one (first.2 one (by simp)))
    | append_singleton right other =>
      rw [endHash_concat,endHash_concat] at same
      obtain ⟨before,parent,inside⟩ := rooted_concat.mp first
      obtain ⟨before',parent',inside'⟩ := rooted_concat.mp second
      obtain rfl := distinct.hashes one inside other inside' same
      rw [ih before before' (parent.symm.trans parent')]

/-- There is one way to a block. -/
theorem Distinct.unique_to (distinct : Distinct P blocks) (first : Rooted P blocks (left ++ [block]))
    (second : Rooted P blocks (right ++ [block])) : left = right := by
  have same := distinct.unique first second (by rw [endHash_concat,endHash_concat])
  exact (List.append_left_inj _).mp same

/-- A path meets no block twice. -/
theorem Distinct.nodup (distinct : Distinct P blocks) (rooted : Rooted P blocks path) : path.Nodup := by
  induction path using List.reverseRecOn with
  | nil => simp
  | append_singleton path block ih =>
    obtain ⟨before,-,-⟩ := rooted_concat.mp rooted
    rw [List.nodup_append']
    refine ⟨ih before,by simp,?_⟩
    intro other earlier last
    obtain rfl := List.mem_singleton.mp last
    -- The path would come to the block a first time before its end.
    obtain ⟨start,rest,rfl⟩ := List.append_of_mem earlier
    have same := distinct.unique_to before.upTo rooted
    have lengths := congrArg List.length same
    simp at lengths

theorem Distinct.length_le (distinct : Distinct P blocks) (rooted : Rooted P blocks path) : path.length ≤ blocks.length :=
  (List.subperm_of_subset (distinct.nodup rooted) rooted.2).length_le

/-- A path through more blocks goes through the new one, or is an old one. -/
theorem Rooted.split_at (rooted : Rooted P (block :: blocks) path) :
    Rooted P blocks path ∨
      ∃ before after, path = before ++ block :: after ∧ Rooted P (block :: blocks) (before ++ [block]) := by
  by_cases through : block ∈ path
  · obtain ⟨before,after,rfl⟩ := List.append_of_mem through
    exact .inr ⟨before,after,rfl,rooted.upTo⟩
  · refine .inl ⟨rooted.1,fun other member => ?_⟩
    rcases List.mem_cons.mp (rooted.2 other member) with rfl | old
    · exact absurd member through
    · exact old

/-! ### Work -/

@[simp] theorem pathWork_nil : pathWork [] = 0 := rfl

@[simp] theorem pathWork_append (left right : List Block) :
    pathWork (left ++ right) = pathWork left + pathWork right := by
  simp [pathWork]

/-- The 64-bit work of a path is its work modulo `2 ^ 64`. -/
theorem foldl_work_mod (start : UInt64) (path : List Block) :
    (path.foldl (fun work block => work + block.blockWork) start).toNat = (start.toNat + pathWork path) % 2 ^ 64 := by
  induction path generalizing start with
  | nil => simp [Nat.mod_eq_of_lt start.toNat_lt]
  | cons block rest ih =>
    have split : pathWork (block :: rest) = block.blockWork.toNat + pathWork rest := by simp [pathWork]
    rw [List.foldl_cons,ih,UInt64.toNat_add,split,Nat.mod_add_mod,Nat.add_assoc]

/-- It is the work of the path as long as that fits. -/
theorem foldl_work {start : UInt64} (fits : start.toNat + pathWork path < 2 ^ 64) :
    (path.foldl (fun work block => work + block.blockWork) start).toNat = start.toNat + pathWork path := by
  rw [foldl_work_mod,Nat.mod_eq_of_lt fits]

/-- Two paths part behind the blocks they share. -/
theorem Distinct.parting (distinct : Distinct P blocks) (first : Rooted P blocks left) (second : Rooted P blocks right) :
    ∃ shared rest others, left = shared ++ rest ∧ right = shared ++ others ∧ ∀ block ∈ rest, block ∉ right := by
  induction left using List.reverseRecOn with
  | nil => exact ⟨[],[],right,rfl,rfl,by simp⟩
  | append_singleton left block ih =>
    obtain ⟨before,-,-⟩ := rooted_concat.mp first
    by_cases both : block ∈ right
    · -- The other path comes to the block the same way.
      obtain ⟨start,others,rfl⟩ := List.append_of_mem both
      obtain rfl := distinct.unique_to second.upTo first
      exact ⟨start ++ [block],[],others,by simp,by simp,by simp⟩
    · obtain ⟨shared,rest,others,rfl,same,apart⟩ := ih before
      refine ⟨shared,rest ++ [block],others,by simp,same,?_⟩
      intro other member
      rcases List.mem_append.mp member with earlier | last
      · exact apart other earlier
      · obtain rfl := List.mem_singleton.mp last
        exact both

/-! ### Chains -/

end

/-- The blocks of a chain are those of a path, with their work. -/
def Follows (P : Primitives) (chain : Blockchain) (path : List Block) : Prop :=
  chain.blocks = Block.genesis P :: stamp 0 path

section
variable {P : Primitives} {chain : Blockchain} {path : List Block} {height : Nat} {block : Block}

theorem follows_new (P : Primitives) : Follows P (.new P) [] := rfl

theorem Follows.size_eq (follows : Follows P chain path) : chain.size = path.length + 1 := by
  rw [Blockchain.size,follows,List.length_cons,stamp_length]

theorem Follows.map_eq {α : Type*} {f : Block → α} (follows : Follows P chain path)
    (blind : ∀ block work, f { block with cumulativeWork := work } = f block) :
    chain.blocks.map f = (Block.genesis P :: path).map f := by
  rw [follows,List.map_cons,List.map_cons,stamp_map blind]

theorem getElem?_onTop (root : Block) (there : (root :: stamp root.cumulativeWork path)[height]? = some block) :
    block.hash = topHash root.hash (path.take height) ∧
      block.cumulativeWork = (path.take height).foldl (fun work block => work + block.blockWork) root.cumulativeWork := by
  induction path generalizing root height with
  | nil =>
    cases height with
    | zero =>
      obtain rfl := Option.some.inj there
      exact ⟨rfl,rfl⟩
    | succ height => simp [stamp] at there
  | cons next rest ih =>
    cases height with
    | zero =>
      obtain rfl := Option.some.inj there
      exact ⟨rfl,rfl⟩
    | succ height =>
      obtain ⟨hash,work⟩ := ih { next with cumulativeWork := next.blockWork + root.cumulativeWork } there
      rw [List.take_succ_cons,topHash,List.foldl_cons,add_comm]
      exact ⟨hash,work⟩

/-- The genesis block has no transactions. -/
theorem Follows.transactionsOf_eq (follows : Follows P chain path) :
    transactionsOf chain.blocks = transactionsOf path := by
  rw [follows,← transactionsOf_stamp 0 path]
  rfl

/-- The chain block at a height ends the path up to there. -/
theorem Follows.getElem? (follows : Follows P chain path) (there : chain.blocks[height]? = some block) :
    block.hash = endHash P (path.take height) ∧
      block.cumulativeWork = (path.take height).foldl (fun work block => work + block.blockWork) 0 := by
  rw [follows] at there
  exact getElem?_onTop (Block.genesis P) there

theorem Follows.latest (follows : Follows P chain path) :
    chain.latest.hash = endHash P path ∧
      chain.latest.cumulativeWork = path.foldl (fun work block => work + block.blockWork) 0 := by
  have last := follows.getElem? chain.blocks_getElem?_latest
  rwa [follows.size_eq,Nat.add_sub_cancel,List.take_length] at last

/-- The tip's work is the work of the path as long as that fits into 64 bits. -/
theorem Follows.work (follows : Follows P chain path) (light : pathWork path < 2 ^ 64) :
    chain.latest.cumulativeWork.toNat = pathWork path := by
  rw [follows.latest.2,foldl_work (by simpa using light)]
  simp

theorem Follows.reorganized (follows : Follows P chain path) (inside : height ≤ path.length) (branch : List Block) :
    Follows P (branch.foldl Blockchain.addBlock (chain.cut height)) (path.take height ++ branch) := by
  have size := follows.size_eq
  have there : chain.blocks[height]? = some (chain.cut height).latest := by
    have last := blocks_getElem?_latest (chain.cut height)
    rw [size_cut (by omega : height < chain.size),Nat.add_sub_cancel,Blockchain.cut,List.getElem?_take_of_lt (by omega)] at last
    exact last
  have kept : (chain.cut height).blocks = Block.genesis P :: (stamp 0 path).take height := by
    show chain.blocks.take (height + 1) = _
    rw [follows,List.take_succ_cons]
  unfold Follows
  rw [blocks_foldl_addBlock,(follows.getElem? there).2,stamp_append,kept,List.cons_append]
  congr 2
  conv_lhs => rw [← List.take_append_drop height path,stamp_append]
  rw [List.take_append_of_le_length (by simp [inside]),List.take_of_length_le (by simp)]

theorem Follows.addBlock (follows : Follows P chain path) (block : Block) :
    Follows P (chain.addBlock block) (path ++ [block]) := by
  show chain.blocks ++ [_] = Block.genesis P :: stamp 0 (path ++ [block])
  rw [follows,stamp_append,follows.latest.2]
  rfl

/-- A branch that grows from a chain goes on with a part of the chain's path. -/
theorem Follows.grown {blocks : List Block} {m : ChainManager} {now : UInt64} {fork : ForkChain}
    (follows : Follows P m.blockchain path) (sound : m.blockchain.Sound) (rooted : Rooted P blocks path)
    (grown : Grown P m now fork height) (members : ∀ block ∈ fork.blocks, block ∈ blocks) :
    height ≤ path.length ∧ Rooted P blocks (path.take height ++ fork.blocks) := by
  have low := sound.below grown.valid.found
  rw [follows.size_eq] at low
  rw [rooted_append,← (follows.getElem? grown.ancestor).1]
  exact ⟨by omega,rooted.take height,grown.linked,members⟩

theorem Follows.nodup {blocks : List Block} (follows : Follows P chain path) (distinct : Distinct P blocks)
    (rooted : Rooted P blocks path) : (chain.blocks.map Block.hash).Nodup := by
  rw [follows.map_eq fun _ _ => rfl,List.map_cons,List.nodup_cons]
  refine ⟨?_,(distinct.nodup rooted).map_on fun one first other second => ?_⟩
  · intro member
    obtain ⟨block,inside,same⟩ := List.mem_map.mp member
    exact distinct.root block (rooted.2 block inside) same
  · exact distinct.hashes one (rooted.2 one first) other (rooted.2 other second)

/-- A chain that goes on with a branch finds all of its blocks. -/
theorem Follows.indexed_reorganized {blocks branch : List Block} (follows : Follows P chain path)
    (indexed : chain.Indexed) (distinct : Distinct P blocks) (inside : height ≤ path.length)
    (rooted : Rooted P blocks (path.take height ++ branch)) :
    (branch.foldl Blockchain.addBlock (chain.cut height)).Indexed := by
  refine (indexed.cut height).foldl_addBlock ?_
  have nodup := (follows.reorganized inside branch).nodup distinct rooted
  rwa [blocks_foldl_addBlock,List.map_append,stamp_map fun _ _ => rfl,← List.map_append] at nodup

theorem Follows.indexed_addBlock {blocks : List Block} (follows : Follows P chain path) (indexed : chain.Indexed)
    (distinct : Distinct P blocks) (rooted : Rooted P blocks (path ++ [block])) : (chain.addBlock block).Indexed := by
  refine indexed.addBlock fun old member same => ?_
  have nodup := (follows.addBlock block).nodup distinct rooted
  rw [Blockchain.addBlock,List.map_append] at nodup
  exact List.disjoint_of_nodup_append nodup (List.mem_map.mpr ⟨old,member,same⟩) (by simp)

/-- Whether a block is in the chain shows on the path. -/
theorem Follows.hasBlock_iff {blocks : List Block} (follows : Follows P chain path) (indexed : chain.Indexed)
    (distinct : Distinct P blocks) (rooted : Rooted P blocks path) (inside : block ∈ blocks) :
    chain.hasBlock block.hash = true ↔ block ∈ path := by
  have member : (∃ other ∈ chain.blocks, other.hash = block.hash) ↔ block.hash ∈ chain.blocks.map Block.hash := by
    simp
  rw [indexed.hasBlock_iff,member,follows.map_eq fun _ _ => rfl,List.map_cons,List.mem_cons]
  constructor
  · rintro (root | there)
    · exact absurd root (distinct.root block inside)
    · obtain ⟨other,on_path,same⟩ := List.mem_map.mp there
      rwa [← distinct.hashes other (rooted.2 other on_path) block inside same]
  · intro on_path
    exact .inr (List.mem_map.mpr ⟨block,on_path,rfl⟩)

end

/-! ### Valid paths -/

section
variable (P : Primitives) (params : ConsensusParams) (now : UInt64)

/-- Every rule holds along a path: for the blocks on their own, for each over
    those below it, for the signatures, and for the ledger. -/
structure ValidPath (path : List Block) : Prop where
  proper : ∀ block ∈ path, Proper P block
  fits : ∀ i block, path[i]? = some block → Fits P params (viewOf (Block.genesis P :: path)) now (i + 1) block
  signed : ∀ tx ∈ transactionsOf path, tx.Authentic P
  applies : AllAccepted Ledger.applyTransaction .empty (transactionsOf path)

variable {P params now} {chain : Blockchain} {path left right : List Block} {height : Nat} {block : Block}

theorem blockAt_eq_viewOf (chain : Blockchain) : chain.blockAt = viewOf chain.blocks := by
  funext i
  unfold Blockchain.blockAt viewOf
  cases chain.blocks[i]? <;> rfl

theorem forkBlockAt_eq_viewOf {base : Nat} (inside : base ≤ chain.size) (branch : List Block) :
    ChainManager.forkBlockAt chain base branch = viewOf (chain.blocks.take base ++ branch) := by
  have length : (chain.blocks.take base).length = base := List.length_take_of_le inside
  funext i
  rcases Nat.lt_or_ge i base with low | high
  · rw [forkBlockAt_below low,blockAt_eq_viewOf,viewOf,viewOf,List.getElem?_append_left (by omega),
      List.getElem?_take_of_lt low]
  · obtain ⟨j,rfl⟩ := Nat.exists_eq_add_of_le high
    rw [forkBlockAt_branch,viewOf,List.getElem?_append_right (by omega),length,Nat.add_sub_cancel_left]

theorem sameBelow_viewOf (same : (left.take height).map Block.timing = (right.take height).map Block.timing) :
    SameBelow height (viewOf left) (viewOf right) := by
  intro i below
  have there := congrArg (fun timings => timings[i]?) same
  simp only [List.getElem?_map,List.getElem?_take_of_lt below] at there
  unfold viewOf
  cases one : left[i]? <;> cases other : right[i]? <;> simp_all [Except.map]

/-- The beginning of a valid path is valid. -/
theorem ValidPath.start (right : List Block) (valid : ValidPath P params now (left ++ right)) :
    ValidPath P params now left := by
  have transactions := transactionsOf_append left right
  refine ⟨fun block member => valid.proper block (List.mem_append_left _ member),?_,?_,?_⟩
  · intro i block there
    have low : i < left.length := (List.getElem?_eq_some_iff.mp there).1
    refine (valid.fits i block (by rw [List.getElem?_append_left low,there])).congr (sameBelow_viewOf ?_)
    rw [← List.cons_append,List.take_append_of_le_length (by simp; omega)]
  · intro tx member
    exact valid.signed tx (by rw [transactions]; exact List.mem_append_left _ member)
  · have applies := valid.applies
    rw [transactions,allAccepted_append] at applies
    exact applies.1

/-- The end of a valid path is signed, and applies on the ledger that its
    beginning gives. -/
theorem ValidPath.rest (valid : ValidPath P params now (left ++ right)) :
    (∀ tx ∈ transactionsOf right, tx.Authentic P) ∧
      AllAccepted Ledger.applyTransaction (play Ledger.applyTransaction .empty (transactionsOf left))
        (transactionsOf right) := by
  have applies := valid.applies
  rw [transactionsOf_append,allAccepted_append] at applies
  refine ⟨fun tx member => valid.signed tx ?_,applies.2⟩
  rw [transactionsOf_append]
  exact List.mem_append_right _ member

/-- A block without the work that a chain gives it. -/
def bare (block : Block) : Block := { block with cumulativeWork := 0 }

theorem map_of_bare {α : Type*} (f : Block → α) (blind : ∀ block, f (bare block) = f block)
    (same : left.map bare = right.map bare) : left.map f = right.map f := by
  have composed : ∀ blocks : List Block, (blocks.map bare).map f = blocks.map f := by
    intro blocks
    rw [List.map_map]
    exact List.map_congr_left fun block _ => blind block
  rw [← composed,same,composed]

/-- No rule looks at the work that a chain gives a block. -/
theorem ValidPath.of_bare (same : left.map bare = right.map bare) (valid : ValidPath P params now left) :
    ValidPath P params now right := by
  have transactions : transactionsOf right = transactionsOf left := by
    rw [transactionsOf,transactionsOf,List.flatMap_def,List.flatMap_def,
      map_of_bare Block.transactions (fun _ => rfl) same]
  have at_height : ∀ (i : Nat) block, right[i]? = some block →
      ∃ other, left[i]? = some other ∧ bare other = bare block := by
    intro i block there
    have both := congrArg (fun blocks => blocks[i]?) same
    simp only [List.getElem?_map,there,Option.map_some] at both
    exact Option.map_eq_some_iff.mp both
  refine ⟨?_,?_,by rw [transactions]; exact valid.signed,by rw [transactions]; exact valid.applies⟩
  · intro block member
    obtain ⟨i,there⟩ := List.mem_iff_getElem?.mp member
    obtain ⟨other,inside,bare_eq⟩ := at_height i block there
    have proper : Proper P (bare other) := (valid.proper other (List.mem_of_getElem? inside)).stamp 0
    rw [bare_eq] at proper
    exact proper.stamp block.cumulativeWork
  · intro i block there
    obtain ⟨other,inside,bare_eq⟩ := at_height i block there
    have fits : Fits P params (viewOf (Block.genesis P :: left)) now (i + 1) (bare other) := valid.fits i other inside
    rw [bare_eq] at fits
    have own : Fits P params (viewOf (Block.genesis P :: left)) now (i + 1) block := fits
    refine own.congr (sameBelow_viewOf ?_)
    rw [List.map_take,List.map_take,List.map_cons,List.map_cons,map_of_bare Block.timing (fun _ => rfl) same]

/-- The blocks of a chain are valid where the path is that it follows. -/
theorem Follows.valid_iff (follows : Follows P chain path) :
    ValidPath P params now (chain.blocks.drop 1) ↔ ValidPath P params now path := by
  have same : (chain.blocks.drop 1).map bare = path.map bare := by
    rw [follows,List.drop_succ_cons,List.drop_zero,stamp_map fun _ _ => rfl]
  exact ⟨.of_bare same,.of_bare same.symm⟩

/-- A block that goes on a valid path fits on the tip of a chain that follows
    the path. -/
theorem ValidPath.fits_tip (valid : ValidPath P params now (path ++ [block])) (follows : Follows P chain path) :
    Fits P params chain.blockAt now chain.size block := by
  have last := valid.fits path.length block (by simp)
  rw [← follows.size_eq] at last
  rw [blockAt_eq_viewOf]
  refine last.congr (sameBelow_viewOf ?_)
  rw [List.map_take,List.map_take,follows.map_eq fun _ _ => rfl,← List.cons_append,List.map_append,
    List.take_append_of_le_length (by simp [follows.size_eq])]

theorem ValidPath.onTip {m : ChainManager} (valid : ValidPath P m.params now (path ++ [block]))
    (follows : Follows P m.blockchain path) (parent : block.prevHash = endHash P path) : OnTip P m now block :=
  ⟨valid.proper block (by simp),parent.trans follows.latest.1.symm,valid.fits_tip follows⟩

/-- A branch that goes on a valid path fits where it leaves a chain. -/
theorem ValidPath.fits_branch {branch : List Block} (valid : ValidPath P params now (path.take height ++ branch))
    (follows : Follows P chain path) (inside : height ≤ path.length) {i : Nat} (there : branch[i]? = some block) :
    Fits P params (ChainManager.forkBlockAt chain (height + 1) branch) now (height + 1 + i) block := by
  have length : (path.take height).length = height := List.length_take_of_le inside
  have own := valid.fits (height + i) block (by
    rw [List.getElem?_append_right (by omega),length,Nat.add_sub_cancel_left,there])
  rw [forkBlockAt_eq_viewOf (by rw [follows.size_eq]; omega),Nat.add_right_comm]
  refine own.congr (sameBelow_viewOf ?_)
  rw [List.map_take,List.map_take,List.map_append,List.map_take,follows.map_eq fun _ _ => rfl]
  simp

end

/-! ### Sample paths -/

theorem plainA_valid : ValidPath sample testParams 2000 [plainA,plainA2] := by
  refine ⟨?_,?_,by decide +kernel,by decide +kernel⟩
  · rw [List.forall_mem_cons,List.forall_mem_singleton]
    exact ⟨⟨by decide +kernel,by decide +kernel,by decide +kernel,by decide +kernel⟩,
      ⟨by decide +kernel,by decide +kernel,by decide +kernel,by decide +kernel⟩⟩
  · rintro (_ | _ | i) block there
    · obtain rfl := Option.some.inj there
      exact ⟨by decide +kernel,by decide +kernel⟩
    · obtain rfl := Option.some.inj there
      exact ⟨by decide +kernel,by decide +kernel⟩
    · simp at there

theorem plainB_valid : ValidPath sample testParams 2000 [plainB] := by
  refine ⟨?_,?_,by decide +kernel,by decide +kernel⟩
  · rw [List.forall_mem_singleton]
    exact ⟨by decide +kernel,by decide +kernel,by decide +kernel,by decide +kernel⟩
  · rintro (_ | i) block there
    · obtain rfl := Option.some.inj there
      exact ⟨by decide +kernel,by decide +kernel⟩
    · simp at there

end ForgeChain.BlockTree
