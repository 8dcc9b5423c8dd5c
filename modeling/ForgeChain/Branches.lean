import ForgeChain.ChainSteps
import ForgeChain.Forest
import Mathlib.Data.List.MinMax

/-!
How a branch is judged: the contextual rules over the chain below the common
ancestor and the branch above it, the valid prefix that is left of a branch,
and the choice of the heaviest among the branches of several tips.
-/
namespace ForgeChain
open Tally

section
variable {P : Primitives} {m : ChainManager} {fork : ForkChain}

/-! ### The contextual rules of a branch -/

/-- A block at a height meets the contextual rules over a view of the blocks
    below it. -/
def Fits (P : Primitives) (params : ConsensusParams) (view : Nat → Except Exn Block) (now : UInt64) (height : Nat)
    (block : Block) : Prop :=
  timestampIsValid params view now block height = .ok true ∧ nextDifficulty P params view height = .ok block.difficulty

section
variable {params : ConsensusParams} {view view' : Nat → Except Exn Block} {now : UInt64}

theorem Fits.congr {height : Nat} {block : Block} (same : SameBelow height view view')
    (fits : Fits P params view now height block) : Fits P params view' now height block := by
  rwa [Fits,← timestampIsValid_congr same,← nextDifficulty_congr same]

/-- The loop over a branch counts blocks that meet the contextual rules. -/
theorem validPrefix_ok {base i len : Nat} {blocks : List Block}
    (run : ChainManager.validPrefix P params view now base i blocks = .ok len) :
    i ≤ len ∧ len ≤ i + blocks.length ∧
      ∀ j block, i + j < len → blocks[j]? = some block → Fits P params view now (base + (i + j)) block := by
  induction blocks generalizing i with
  | nil =>
    simp only [ChainManager.validPrefix,Except.ok.injEq] at run
    subst run
    simp
  | cons first rest ih =>
    rw [ChainManager.validPrefix] at run
    -- The loop ends at this block unless both rules hold for it.
    rcases stamp : timestampIsValid params view now first (base + i) with e | _ | _
    · simp [stamp,bind,Except.bind] at run
    · simp only [stamp,bind,Except.bind,Bool.false_eq_true,if_false,Except.ok.injEq] at run
      subst run
      exact ⟨le_rfl,by omega,fun j block inside => by omega⟩
    · rcases bits : nextDifficulty P params view (base + i) with e | difficulty
      · simp [stamp,bits,bind,Except.bind] at run
      · by_cases same : first.difficulty = difficulty
        · simp only [stamp,bits,bind,Except.bind,if_true,same,ne_eq,not_true_eq_false,if_false] at run
          obtain ⟨low,high,fit⟩ := ih run
          refine ⟨by omega,by simp; omega,fun j block inside there => ?_⟩
          cases j with
          | zero =>
            obtain rfl := Option.some.inj there
            exact ⟨stamp,by rw [Nat.add_zero,bits,same]⟩
          | succ j =>
            have := fit j block (by omega) there
            rwa [Nat.add_right_comm] at this
        · simp only [stamp,bits,bind,Except.bind,if_true,same,ne_eq,not_false_eq_true,Except.ok.injEq] at run
          subst run
          exact ⟨le_rfl,by omega,fun j block inside => by omega⟩

/-- The loop counts every leading block that meets the contextual rules. -/
theorem le_validPrefix {base i len n : Nat} {blocks : List Block}
    (run : ChainManager.validPrefix P params view now base i blocks = .ok len) (inside : n ≤ blocks.length)
    (fit : ∀ j block, j < n → blocks[j]? = some block → Fits P params view now (base + (i + j)) block) : i + n ≤ len := by
  induction blocks generalizing i n with
  | nil =>
    have := (validPrefix_ok run).1
    simp at inside
    omega
  | cons first rest ih =>
    cases n with
    | zero => exact (validPrefix_ok run).1
    | succ n =>
      obtain ⟨stamp,bits⟩ := fit 0 first (by omega) rfl
      rw [Nat.add_zero] at stamp bits
      rw [ChainManager.validPrefix] at run
      simp only [stamp,bits,bind,Except.bind,if_true,ne_eq,not_true_eq_false,if_false] at run
      have := ih (n := n) run (by simpa using inside) (fun j block less there => by
        have := fit (j + 1) block (by omega) there
        rwa [Nat.add_right_comm])
      omega

theorem validPrefix_total (P : Primitives) (params : ConsensusParams) (now : UInt64) {base : Nat}
    (blocks : List Block) (i : Nat) (there : ∀ j < base + i + blocks.length, ∃ block, view j = .ok block) :
    ∃ len, ChainManager.validPrefix P params view now base i blocks = .ok len := by
  induction blocks generalizing i with
  | nil => exact ⟨i,rfl⟩
  | cons first rest ih =>
    simp only [List.length_cons] at there
    have earlier : ∀ j < base + i, ∃ block, view j = .ok block := fun j below => there j (by omega)
    obtain ⟨valid,stamp⟩ := timestampIsValid_total params now first earlier
    obtain ⟨difficulty,bits⟩ := nextDifficulty_total P params earlier
    rw [ChainManager.validPrefix]
    simp only [stamp,bits,bind,Except.bind]
    split
    · split
      · exact ⟨i,rfl⟩
      · exact ih (i + 1) (fun j below => there j (by omega))
    · exact ⟨i,rfl⟩

end

section
variable {chain : Blockchain} {base : Nat} {branch : List Block}

theorem forkBlockAt_below {i : Nat} (below : i < base) :
    ChainManager.forkBlockAt chain base branch i = chain.blockAt i := by
  simp [ChainManager.forkBlockAt,below]

theorem forkBlockAt_branch (i : Nat) :
    ChainManager.forkBlockAt chain base branch (base + i) =
      branch[i]?.elim (.error .outOfRange) .ok := by
  simp only [ChainManager.forkBlockAt,Nat.not_lt.mpr (Nat.le_add_right base i),if_false,Nat.add_sub_cancel_left]
  cases branch[i]? <;> rfl

theorem forkBlockAt_total (inside : base ≤ chain.size) {i : Nat} (below : i < base + branch.length) :
    ∃ block, ChainManager.forkBlockAt chain base branch i = .ok block := by
  rcases Nat.lt_or_ge i base with low | high
  · rw [forkBlockAt_below low]
    exact Blockchain.blockAt_below (by omega)
  · obtain ⟨j,rfl⟩ := Nat.exists_eq_add_of_le high
    rw [forkBlockAt_branch,List.getElem?_eq_getElem (by omega)]
    exact ⟨_,rfl⟩

/-- A longer branch shows the same blocks below the end of the shorter one. -/
theorem forkBlockAt_take {len i : Nat} (inside : i ≤ len) :
    SameBelow (base + i) (ChainManager.forkBlockAt chain base branch)
      (ChainManager.forkBlockAt chain base (branch.take len)) := by
  apply SameBelow.of_eq
  intro j below
  rcases Nat.lt_or_ge j base with low | high
  · rw [forkBlockAt_below low,forkBlockAt_below low]
  · obtain ⟨k,rfl⟩ := Nat.exists_eq_add_of_le high
    rw [forkBlockAt_branch,forkBlockAt_branch,List.getElem?_take_of_lt (by omega)]

/-- A chain reorganized onto a branch shows the contextual rules what the branch
    showed them. -/
theorem sameBelow_reorganized {height : Nat} (inside : height < chain.size) (branch : List Block) (n : Nat) :
    SameBelow n (ChainManager.forkBlockAt chain (height + 1) branch)
      (branch.foldl Blockchain.addBlock (chain.cut height)).blockAt := by
  intro i _
  rcases Nat.lt_or_ge i (height + 1) with low | high
  · rw [forkBlockAt_below low,Blockchain.blockAt,Blockchain.blockAt,Blockchain.reorganized_below inside (by omega)]
  · obtain ⟨j,rfl⟩ := Nat.exists_eq_add_of_le high
    rw [forkBlockAt_branch,Blockchain.blockAt,Blockchain.reorganized_above inside]
    cases there : branch[j]? with
    | none =>
      have outside : (Blockchain.stamp (chain.cut height).latest.cumulativeWork branch)[j]? = none := by
        rw [List.getElem?_eq_none_iff] at there ⊢
        rwa [Blockchain.stamp_length]
      rw [outside]
      rfl
    | some plain =>
      obtain ⟨sum,stamped⟩ := Blockchain.getElem?_stamp there (chain.cut height).latest.cumulativeWork
      rw [stamped]
      rfl

theorem validPrefixLength_total (P : Primitives) (params : ConsensusParams) (now : UInt64) (sound : chain.Sound)
    {hash : HashBytes} {height : Nat} (found : chain.findHeight hash = some height) (branch : List Block) :
    ∃ len, ChainManager.validPrefix P params (ChainManager.forkBlockAt chain (height + 1) branch) now (height + 1) 0
      branch = .ok len :=
  validPrefix_total P params now branch 0 fun _ below => forkBlockAt_total (sound.below found) below

/-- A branch that grows from the chain block at a height and whose blocks meet
    the contextual rules over the chain up to there and the branch itself. -/
structure ValidBranch (P : Primitives) (m : ChainManager) (now : UInt64) (fork : ForkChain) (height : Nat) : Prop where
  found : m.blockchain.findHeight fork.commonAncestor.hash = some height
  fits : ∀ i block, fork.blocks[i]? = some block →
    Fits P m.params (ChainManager.forkBlockAt m.blockchain (height + 1) fork.blocks) now (height + 1 + i) block

end

section
variable {now : UInt64} {full : ForkChain}

/-- What is left of a branch is valid. -/
theorem truncate_valid (run : m.truncate P full now = .ok (some fork)) :
    ∃ height len, ValidBranch P m now fork height ∧ 0 < len ∧ len ≤ full.blocks.length ∧
      fork = { full with blocks := full.blocks.take len } := by
  unfold ChainManager.truncate ChainManager.validPrefixLength at run
  rcases found : m.blockchain.findHeight full.commonAncestor.hash with _ | height
  · simp [found,bind,Except.bind] at run
  · simp only [found] at run
    rcases counted : ChainManager.validPrefix P m.params
      (ChainManager.forkBlockAt m.blockchain (height + 1) full.blocks) now (height + 1) 0 full.blocks with e | len
    · simp [counted,bind,Except.bind] at run
    · simp only [counted,bind,Except.bind] at run
      split at run
      · cases run
      · rename_i some_left
        simp only [Except.ok.injEq,Option.some.injEq] at run
        obtain ⟨-,high,fit⟩ := validPrefix_ok counted
        refine ⟨height,len,⟨by rw [← run]; exact found,?_⟩,by omega,by omega,run.symm⟩
        intro i block there
        rw [← run] at there ⊢
        rw [List.getElem?_take] at there
        split at there
        · rename_i inside
          have := fit i block (by omega) there
          rw [Nat.zero_add] at this
          exact this.congr (forkBlockAt_take inside.le)
        · cases there

theorem truncate_nonempty (run : m.truncate P full now = .ok (some fork)) : fork.blocks ≠ [] := by
  obtain ⟨-,len,-,some_left,inside,rfl⟩ := truncate_valid run
  refine List.length_pos_iff.mp ?_
  rw [List.length_take]
  omega

theorem truncate_total (sound : m.blockchain.Sound) (full : ForkChain) (now : UInt64) :
    ∃ result, m.truncate P full now = .ok result := by
  unfold ChainManager.truncate ChainManager.validPrefixLength
  rcases found : m.blockchain.findHeight full.commonAncestor.hash with _ | height
  · exact ⟨none,by simp [bind,Except.bind]⟩
  · obtain ⟨len,counted⟩ := validPrefixLength_total P m.params now sound found full.blocks
    simp only [counted,bind,Except.bind]
    split
    · exact ⟨none,rfl⟩
    · exact ⟨_,rfl⟩

/-- A branch with valid first blocks keeps them. -/
theorem truncate_keeps (sound : m.blockchain.Sound) (full : ForkChain) (now : UInt64) {height n : Nat}
    (found : m.blockchain.findHeight full.commonAncestor.hash = some height) (some_valid : 0 < n)
    (inside : n ≤ full.blocks.length)
    (fit : ∀ i block, i < n → full.blocks[i]? = some block →
      Fits P m.params (ChainManager.forkBlockAt m.blockchain (height + 1) full.blocks) now (height + 1 + i) block) :
    ∃ len, n ≤ len ∧ m.truncate P full now = .ok (some { full with blocks := full.blocks.take len }) := by
  obtain ⟨len,counted⟩ := validPrefixLength_total P m.params now sound found full.blocks
  have long := le_validPrefix counted inside (fun j block less there => by
    rw [Nat.zero_add]
    exact fit j block less there)
  refine ⟨len,by omega,?_⟩
  unfold ChainManager.truncate ChainManager.validPrefixLength
  simp only [found,counted,bind,Except.bind]
  rw [if_neg (by omega)]

end

/-- A valid branch whose blocks are linked to the chain block at a height. -/
structure Grown (P : Primitives) (m : ChainManager) (now : UInt64) (fork : ForkChain) (height : Nat) : Prop where
  ancestor : m.blockchain.blocks[height]? = some fork.commonAncestor
  linked : Blockchain.Linked fork.commonAncestor.hash fork.blocks
  valid : ValidBranch P m now fork height

/-- A branch that grows from the chain meets the contextual rules in the chain
    that is reorganized onto it. -/
theorem Grown.fits_reorganized {now : UInt64} {height i : Nat} {block : Block} (sound : m.blockchain.Sound)
    (grown : Grown P m now fork height) (above : height < i)
    (there : (fork.blocks.foldl Blockchain.addBlock (m.blockchain.cut height)).blocks[i]? = some block) :
    Fits P m.params (fork.blocks.foldl Blockchain.addBlock (m.blockchain.cut height)).blockAt now i block := by
  have inside := sound.below grown.valid.found
  obtain ⟨j,plain,rfl,own,same⟩ := Blockchain.branch_of_reorganized inside above there
  have fits := (grown.valid.fits j plain own).congr (sameBelow_reorganized inside fork.blocks _)
  rw [same]
  exact fits

/-- A chain that is reorganized onto a branch has the work of the branch. -/
theorem work_reorganized {chain : Blockchain} {height : Nat}
    (ancestor : chain.blocks[height]? = some fork.commonAncestor) :
    (fork.blocks.foldl Blockchain.addBlock (chain.cut height)).latest.cumulativeWork = forkWork fork := by
  rw [Blockchain.work_foldl_addBlock,Blockchain.latest_cut ancestor,forkWork]

/-! ### The choice between branches -/

/-- A branch that a tip gives: traced back to the chain and cut behind its
    valid prefix. -/
def Candidate (P : Primitives) (m : ChainManager) (now : UInt64) (tip : Block) (fork : ForkChain) : Prop :=
  ∃ full, buildForkChain m.blockchain m.orphanPool tip = some full ∧ m.truncate P full now = .ok (some fork)

/-- A candidate grows from the chain through the pool up to its tip, or ends
    before that. -/
theorem Candidate.grown {now : UInt64} {tip : Block} (sound : m.blockchain.Sound) (keyed : m.orphanPool.Keyed)
    (candidate : Candidate P m now tip fork) :
    ∃ height path len, Grown P m now fork height ∧ fork.blocks = (path ++ [tip]).take len ∧ 0 < len ∧
      len ≤ path.length + 1 ∧ ∀ block ∈ path, m.orphanPool.findOrphan block.hash = some block := by
  obtain ⟨full,built,cut⟩ := candidate
  obtain ⟨path,blocks,-,inside,found,linked,top⟩ := traceFork_spec sound keyed built
  obtain ⟨height,len,valid,some_left,short,rfl⟩ := truncate_valid cut
  obtain ⟨-,height',at_height,there⟩ := sound.find found
  have same : height' = height := Option.some.inj (at_height.symm.trans valid.found)
  subst same
  have whole : Blockchain.Linked full.commonAncestor.hash full.blocks := by
    rw [blocks]
    exact Blockchain.linked_append.mpr ⟨linked,top.symm,trivial⟩
  refine ⟨height',path,len,⟨there,whole.take len,valid⟩,by rw [← blocks],some_left,?_,
    fun block member => (inside block member).1⟩
  simpa [blocks] using short

/-- The children of a block in the pool, as a walk meets them. -/
def childrenIn (pool : OrphanPool) (walk : WalkOrder) (block : Block) : List Block := pool.childrenOf walk block.hash

theorem findForkTips_eq (pool : OrphanPool) (walk : WalkOrder) (start : Block) :
    ChainManager.findForkTips pool walk start = Forest.ends (childrenIn pool walk) kMaxForkDepth [start] [] := by
  suffices same : ∀ left stack tips,
      ChainManager.walkTips pool walk left stack tips = Forest.ends (childrenIn pool walk) left stack tips from same _ _ _
  intro left
  induction left with
  | zero =>
    intro stack tips
    cases stack <;> rfl
  | succ left ih =>
    intro stack tips
    cases stack with
    | nil => rfl
    | cons block stack =>
      rw [ChainManager.walkTips,Forest.ends,childrenIn]
      cases pool.childrenOf walk block.hash <;> exact ih _ _

/-- A fork tip descends from the block through the pool. -/
theorem below_of_findForkTips {pool : OrphanPool} {walk : WalkOrder} {start tip : Block}
    (member : tip ∈ ChainManager.findForkTips pool walk start) : Forest.Below (childrenIn pool walk) start tip := by
  rw [findForkTips_eq] at member
  rcases Forest.ends_below member with nothing | ⟨root,is_start,below⟩
  · cases nothing
  · rwa [← List.mem_singleton.mp is_start]

theorem mem_findForkTips {pool : OrphanPool} {walk : WalkOrder} {start tip : Block}
    (member : tip ∈ ChainManager.findForkTips pool walk start) : tip = start ∨ tip ∈ pool.blocks := by
  rcases Relation.ReflTransGen.cases_tail (below_of_findForkTips member) with same | ⟨parent,-,is_child⟩
  · exact .inl same
  · exact .inr (OrphanPool.mem_childrenOf.mp is_child).1

/-- Seen from a block whose hash does not come up again below it, the pool is a
    forest. -/
theorem pending_below {pool : OrphanPool} (keyed : pool.Keyed) (walk : WalkOrder) {start : Block}
    (apart : ∀ node, Forest.Below (childrenIn pool walk) start node →
      ∀ child ∈ childrenIn pool walk node, child.hash ≠ start.hash) :
    ∃ unvisited : Finset Block, (∀ block, block ∈ unvisited ↔ Forest.Below (childrenIn pool walk) start block) ∧
      Forest.Pending (childrenIn pool walk) unvisited [start] := by
  classical
  let Under := Forest.Below (childrenIn pool walk) start
  have member_iff : ∀ block, block ∈ (start :: pool.blocks).toFinset.filter Under ↔ Under block := by
    intro block
    refine ⟨fun member => (Finset.mem_filter.mp member).2,fun under => Finset.mem_filter.mpr ⟨?_,under⟩⟩
    rcases Relation.ReflTransGen.cases_tail under with rfl | ⟨parent,-,is_child⟩
    · simp
    · simp [(OrphanPool.mem_childrenOf.mp is_child).1]
  -- Below the start a hash belongs to one block.
  have hashes : ∀ node other, Under node → Under other → node.hash = other.hash → node = other := by
    intro node other under under' same
    rcases Relation.ReflTransGen.cases_tail under with rfl | ⟨parent,above,is_child⟩
    · rcases Relation.ReflTransGen.cases_tail under' with rfl | ⟨parent,above,is_child⟩
      · rfl
      · exact absurd same.symm (apart parent above other is_child)
    · rcases Relation.ReflTransGen.cases_tail under' with rfl | ⟨parent',-,is_child'⟩
      · exact absurd same (apart parent above node is_child)
      · have first := keyed.mem_blocks.mp (OrphanPool.mem_childrenOf.mp is_child).1
        have second := keyed.mem_blocks.mp (OrphanPool.mem_childrenOf.mp is_child').1
        rw [same] at first
        exact Option.some.inj (first.symm.trans second)
  refine ⟨(start :: pool.blocks).toFinset.filter Under,member_iff,by simp,?_,?_,?_,?_,?_⟩
  · intro node member
    obtain rfl := List.mem_singleton.mp member
    exact (member_iff node).mpr .refl
  · intro root member node under is_child
    obtain rfl := List.mem_singleton.mp member
    exact apart node ((member_iff node).mp under) root is_child rfl
  · intro node under child is_child
    exact (member_iff child).mpr (.tail ((member_iff node).mp under) is_child)
  · intro node under other under' child is_child is_child'
    have first := (OrphanPool.mem_childrenOf.mp is_child).2
    have second := (OrphanPool.mem_childrenOf.mp is_child').2
    exact hashes node other ((member_iff node).mp under) ((member_iff other).mp under') (first.symm.trans second)
  · intro node _
    have arranged := (walk.perm pool.blocks).nodup_iff.mpr keyed.nodup_blocks
    exact arranged.filter _

/-- The branch of a tip, if it has one. -/
def branchOf (P : Primitives) (m : ChainManager) (now : UInt64) (tip : Block) : Option ForkChain :=
  (buildForkChain m.blockchain m.orphanPool tip).bind fun full =>
    match m.truncate P full now with
    | .ok fork => fork
    | .error _ => none

/-- The branches of several tips, in the order of the tips. -/
def branches (P : Primitives) (m : ChainManager) (now : UInt64) (tips : List Block) : List ForkChain :=
  tips.filterMap (branchOf P m now)

theorem branchOf_eq_some {now : UInt64} {tip : Block} :
    branchOf P m now tip = some fork ↔ Candidate P m now tip fork := by
  rw [branchOf,Option.bind_eq_some_iff]
  refine exists_congr fun full => and_congr_right fun _ => ?_
  rcases m.truncate P full now with e | result <;> simp

theorem mem_branches {now : UInt64} {tips : List Block} :
    fork ∈ branches P m now tips ↔ ∃ tip ∈ tips, Candidate P m now tip fork := by
  simp only [branches,List.mem_filterMap,branchOf_eq_some]

/-- The loop over the tips takes the first of the heaviest branches. -/
theorem bestFork_eq (P : Primitives) (now : UInt64) (sound : m.blockchain.Sound) (tips : List Block) :
    m.bestFork P now tips none = .ok ((branches P m now tips).argmax fun fork => (forkWork fork).toNat) := by
  suffices loop : ∀ best : Option ForkChain, m.bestFork P now tips (best.map fun fork => (fork,forkWork fork)) =
      .ok ((branches P m now tips).foldl (List.argAux fun one other => (forkWork other).toNat < (forkWork one).toNat) best) from
    loop none
  induction tips with
  | nil =>
    intro best
    cases best <;> rfl
  | cons tip rest ih =>
    intro best
    rw [ChainManager.bestFork,branches,List.filterMap_cons,branchOf]
    rcases buildForkChain m.blockchain m.orphanPool tip with _ | full
    · exact ih best
    · obtain ⟨cutoff,cut⟩ := truncate_total (P := P) sound full now
      simp only [cut,bind,Except.bind,Option.bind_some]
      cases cutoff with
      | none => exact ih best
      | some mine =>
        cases best with
        | none => exact ih (some mine)
        | some old =>
          -- A branch replaces the one so far if it is heavier.
          have order : (forkWork old).toNat < (forkWork mine).toNat ↔ forkWork mine > forkWork old := Iff.rfl
          simp only [Option.map_some,List.foldl_cons,List.argAux,order]
          split
          · exact ih (some mine)
          · exact ih (some old)

/-- The loop over the tips finds no candidate, or a heaviest one. -/
theorem bestFork_spec (P : Primitives) (m : ChainManager) (now : UInt64) (sound : m.blockchain.Sound)
    (tips : List Block) :
    (m.bestFork P now tips none = .ok none ∧ ∀ tip ∈ tips, ∀ fork, ¬ Candidate P m now tip fork) ∨
    ∃ fork, m.bestFork P now tips none = .ok (some fork) ∧ (∃ tip ∈ tips, Candidate P m now tip fork) ∧
      ∀ tip ∈ tips, ∀ other, Candidate P m now tip other → forkWork other ≤ forkWork fork := by
  rw [bestFork_eq P now sound]
  cases best : (branches P m now tips).argmax fun fork => (forkWork fork).toNat with
  | none =>
    refine .inl ⟨rfl,fun tip member fork candidate => ?_⟩
    have there := mem_branches.mpr ⟨tip,member,candidate⟩
    rw [List.argmax_eq_none.mp best] at there
    cases there
  | some fork =>
    refine .inr ⟨fork,rfl,mem_branches.mp (List.argmax_mem best),fun tip member other candidate => ?_⟩
    have heaviest := List.le_of_mem_argmax (f := fun fork => (forkWork fork).toNat)
      (mem_branches.mpr ⟨tip,member,candidate⟩) best
    exact UInt64.le_iff_toNat_le.mpr heaviest

end
end ForgeChain
