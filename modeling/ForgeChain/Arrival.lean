import ForgeChain.Tracking

/-!
Submitting the blocks of a tree of valid paths in any order. As long as no block
extends the tip while children of it wait, and no ancestor that a reorganization
discarded is missing (`Orderly`), the chain follows a heaviest path whatever the
order, so two orders end with the same work (`endWork_any_order`).
-/
namespace ForgeChain.Arrival
open Tally Runs Ledger Reorg Replay BlockTree Samples

section
variable (P : Primitives) (now : UInt64)

/-- A block is submitted; the blocks that came so far are remembered. -/
def arrive (state : ChainManager × List Block) (arrival : WalkOrder × Block) : ChainManager × List Block :=
  ((state.1.submitBlock P ⟨now,arrival.1⟩ arrival.2).2,arrival.2 :: state.2)

/-- Nothing waits for a block that extends the tip, and the ledger knows its
    senders. Of the ancestors of any other block none is missing that came
    before, and the branch that is adopted settles. -/
structure Orderly (state : ChainManager × List Block) (arrival : WalkOrder × Block) : Prop where
  childless : arrival.2.prevHash = state.1.blockchain.latest.hash →
    ∀ child ∈ state.1.orphanPool.blocks, child.prevHash ≠ arrival.2.hash
  known : arrival.2.prevHash = state.1.blockchain.latest.hash →
    Along tryTransaction Knows state.1.ledger arrival.2.transactions
  kept : arrival.2.prevHash ≠ state.1.blockchain.latest.hash →
    ∀ path, Rooted P (arrival.2 :: state.2) (path ++ [arrival.2]) →
      ∀ block ∈ path, state.1.blockchain.hasBlock block.hash = true ∨ block ∈ state.1.orphanPool.blocks
  settles : ∀ fork height, Offers P state.1 (.submitBlock ⟨now,arrival.1⟩ arrival.2) fork →
    Adoptable P state.1 fork height → SettlesOn P state.1 fork height

end

section
variable {P : Primitives} {params : ConsensusParams} {now : UInt64} {tree path seen : List Block} {m : ChainManager}
  {block : Block} {walk : WalkOrder} (valid : ValidTree P params now tree)
  (light : ∀ path, Rooted P tree path → pathWork path < 2 ^ 64) (tracks : Tracks P params path seen m)
  (inside : ∀ other ∈ block :: seen, other ∈ tree) (fresh : block ∉ seen)
include valid tracks inside fresh

/-! ### One arrival -/

omit valid inside fresh in
theorem heaviest_old {other : List Block} (along : Rooted P (block :: seen) other) (around : block ∉ other) :
    pathWork other ≤ pathWork path := by
  refine tracks.heaviest other ⟨along.1,fun one member => ?_⟩
  rcases List.mem_cons.mp (along.2 one member) with rfl | old
  · exact absurd member around
  · exact old

/-- A new block in the pool changes nothing else, if no path through it is
    heavier. -/
theorem tracks_pooled
    (lighter : ∀ through, Rooted P (block :: seen) through → block ∈ through → pathWork through ≤ pathWork path) :
    Tracks P params path (block :: seen) (m.pooled block) where
  root := tracks.root
  sound := tracks.sound
  keyed := tracks.keyed.addOrphan block
  authentic := tracks.authentic
  agrees := tracks.agrees
  params_eq := tracks.params_eq
  follows := tracks.follows
  rooted := rooted_old tracks
  indexed := tracks.indexed
  maxSize := (OrphanPool.maxSize_addOrphan _ _).trans tracks.maxSize
  pool := fun _ member => ⟨mem_pooled_seen valid tracks inside fresh member,pooled_off valid tracks inside fresh member⟩
  waiting := fun _ => pooled_waiting valid tracks inside fresh
  heaviest := by
    intro other along
    by_cases through : block ∈ other
    · exact lighter other along through
    · exact heaviest_old tracks along through

/-- A new block on the tip that nothing waits for extends the path. -/
theorem tracks_extended (parent : block.prevHash = m.blockchain.latest.hash)
    (childless : ∀ child ∈ m.orphanPool.blocks, child.prevHash ≠ block.hash)
    (known : Along tryTransaction Knows m.ledger block.transactions) :
    Tracks P params (path ++ [block]) (block :: seen) (m.submitBlock P ⟨now,walk⟩ block).2 := by
  have distinct := tracks_distinct valid inside
  have rooted : Rooted P (block :: seen) (path ++ [block]) :=
    rooted_concat.mpr ⟨rooted_old tracks,parent.trans tracks.follows.latest.1,by simp⟩
  have valid_path := valid.valid _ (rooted.mono inside)
  obtain ⟨signed,replayed⟩ := valid_path.rest
  rw [← tracks.follows.transactionsOf_eq,transactionsOf_singleton] at replayed
  rw [transactionsOf_singleton] at signed
  rw [← tracks.params_eq] at valid_path
  obtain ⟨applied,agrees⟩ := allAccepted_of_agrees tracks.agrees.symm known replayed
  have regular := regular_after tracks.toRegular (.submitBlock ⟨now,walk⟩ block)
  have run : m.submitBlock P ⟨now,walk⟩ block = (.ok (.accepted block),m.extended P block) :=
    submitBlock_extends (valid_path.onTip tracks.follows (parent.trans tracks.follows.latest.1)) signed applied
  rw [ChainManager.after,run] at regular
  rw [run]
  refine ⟨⟨regular,?_⟩,tracks.params_eq,tracks.follows.addBlock block,rooted,
    tracks.follows.indexed_addBlock tracks.indexed distinct rooted,tracks.maxSize,?_,?_,?_⟩
  · show (play applyTransaction m.ledger block.transactions).Agrees (replay (m.blockchain.addBlock block).blocks)
    rw [replay_addBlock]
    exact agrees.symm
  · intro other member
    obtain ⟨old,off⟩ := tracks.pool other member
    refine ⟨List.mem_cons_of_mem _ old,?_⟩
    rw [List.mem_append,List.mem_singleton]
    rintro (on_chain | rfl)
    · exact off on_chain
    · exact fresh old
  · intro other member unreached
    rcases List.mem_cons.mp member with rfl | old
    · exact absurd rooted (unreached path)
    · exact tracks.waiting other old fun way reached => unreached way (reached.mono fun _ => List.mem_cons_of_mem _)
  · intro other along
    rw [pathWork_append]
    rcases along.split_at with before | ⟨before,after,rfl,reached⟩
    · exact (tracks.heaviest other before).trans (Nat.le_add_right _ _)
    -- Whatever is behind the block on a path would wait for it.
    cases after with
    | nil => rw [distinct.unique_to reached rooted,pathWork_append]
    | cons child after =>
      have regroup : before ++ block :: child :: after = (before ++ [block]) ++ child :: after := by simp
      rw [regroup] at along
      obtain ⟨-,child_parent,-⟩ := rooted_concat.mp along.upTo
      rw [endHash_concat] at child_parent
      exact absurd child_parent (childless child (behind_waits valid tracks inside fresh along.upTo (by simp)))

variable (kept : ∀ before, Rooted P (block :: seen) (before ++ [block]) →
  ∀ other ∈ before, other ∈ path ∨ other ∈ m.orphanPool.blocks)
include kept

include light in
/-- A path through the new block gives a branch to weigh that is no lighter. -/
theorem chosen_through (walk : WalkOrder) {through : List Block} (along : Rooted P (block :: seen) through)
    (on_path : block ∈ through) :
    ∃ fork, Chosen P m ⟨now,walk⟩ block fork ∧ pathWork through ≤ (forkWork fork).toNat := by
  obtain ⟨before,after,rfl,reached⟩ := along.split_at.resolve_left fun old => fresh (old.2 block on_path)
  obtain ⟨fork,chosen,heavy⟩ := chosen_exists valid light tracks inside fresh walk reached (kept before reached)
  exact ⟨fork,chosen,heavy _ along on_path⟩

include light in
/-- After a reorganization the chain follows the path of the branch. -/
theorem tracks_reorganized {fork : ForkChain} {height : Nat} {m' : ChainManager}
    (chosen : Chosen P m ⟨now,walk⟩ block fork) (reorg : Reorganized P (m.pooled block) m' fork height)
    (regular : Regular P { m' with orphanPool := (fork.blocks.map Block.hash).foldl .removeOrphan m'.orphanPool })
    (agrees : m'.ledger.Agrees (replay m'.blockchain.blocks)) :
    Tracks P params (path.take height ++ fork.blocks) (block :: seen)
      { m' with orphanPool := (fork.blocks.map Block.hash).foldl .removeOrphan m'.orphanPool } := by
  have distinct := tracks_distinct valid inside
  obtain ⟨height',grown,low,rooted,work⟩ := chosen_path light tracks inside chosen
  obtain rfl : height' = height := Option.some.inj (grown.valid.found.symm.trans reorg.found)
  have follows := tracks.follows.reorganized low fork.blocks
  have still : ∀ other, other ∈ ((fork.blocks.map Block.hash).foldl OrphanPool.removeOrphan m'.orphanPool).blocks ↔
      other.hash ∉ fork.blocks.map Block.hash ∧ other ∈ (m.pooled block).orphanPool.blocks := by
    rw [reorg.orphanPool]
    exact fun other => (tracks.keyed.addOrphan block).mem_foldl_removeOrphan _
  refine ⟨⟨regular,agrees⟩,reorg.params.trans tracks.params_eq,?_,rooted,?_,?_,?_,?_,?_⟩
  · rw [reorg.blockchain]
    exact follows
  · rw [reorg.blockchain]
    exact tracks.follows.indexed_reorganized tracks.indexed distinct low rooted
  · rw [OrphanPool.maxSize_foldl_removeOrphan,reorg.orphanPool]
    exact (OrphanPool.maxSize_addOrphan _ _).trans tracks.maxSize
  · intro other member
    obtain ⟨off_branch,pooled⟩ := (still other).mp member
    refine ⟨mem_pooled_seen valid tracks inside fresh pooled,?_⟩
    rw [List.mem_append]
    rintro (below | above)
    · exact pooled_off valid tracks inside fresh pooled (List.mem_of_mem_take below)
    · exact off_branch (List.mem_map.mpr ⟨other,above,rfl⟩)
  · intro other member unreached
    refine (still other).mpr ⟨?_,pooled_waiting valid tracks inside fresh member unreached⟩
    intro on_branch
    obtain ⟨same,above,hash⟩ := List.mem_map.mp on_branch
    have on_path : same ∈ path.take height' ++ fork.blocks := List.mem_append_right _ above
    obtain rfl := distinct.hashes same (rooted.2 same on_path) other member hash
    obtain ⟨left,right,split⟩ := List.append_of_mem on_path
    rw [split] at rooted
    exact unreached left rooted.upTo
  · intro other along
    rw [← work]
    by_cases through : block ∈ other
    · obtain ⟨heaviest,that,heavy⟩ := chosen_through valid light tracks inside fresh kept walk along through
      rwa [chosen.unique that]
    · have old := heaviest_old tracks along through
      have heavier : m.blockchain.latest.cumulativeWork < forkWork fork := of_decide_eq_true reorg.heavier
      have before := tracks.follows.work (light _ ((rooted_old tracks).mono inside))
      have := UInt64.lt_iff_toNat_lt.mp heavier
      omega

include light in
/-- A new block that is not on the tip waits, or stays in the pool, or makes the
    chain follow a heavier path. -/
theorem tracks_offTip (parent : block.prevHash ≠ m.blockchain.latest.hash)
    (settles : ∀ fork height, Offers P m (.submitBlock ⟨now,walk⟩ block) fork → Adoptable P m fork height →
      SettlesOn P m fork height) :
    ∃ path', Tracks P params path' (block :: seen) (m.submitBlock P ⟨now,walk⟩ block).2 := by
  obtain ⟨way,reached⟩ := valid.rooted block (inside block (by simp))
  have off : OffTip P m block := ⟨(valid.valid _ reached).proper block (by simp),parent⟩
  have regular := regular_after tracks.toRegular (.submitBlock ⟨now,walk⟩ block)
  rw [ChainManager.after] at regular
  cases submitBlock_cases tracks.toRegular ⟨now,walk⟩ block with
  | refused notOn notOff run => exact absurd off notOff
  | accepted tip signed applied run => exact absurd tip.parent parent
  | rolledBack tip before tx after split signed applied stops run => exact absurd tip.parent parent
  | raised tip before tx after e split signed applied bad run => exact absurd tip.parent parent
  | waiting off untraced run =>
    rw [run]
    refine ⟨path,tracks_pooled valid tracks inside fresh fun through along on_path => ?_⟩
    obtain ⟨fork,⟨⟨own,traced⟩,-⟩,-⟩ := chosen_through valid light tracks inside fresh kept walk along on_path
    rw [untraced] at traced
    cases traced
  | outweighed off traced weak run =>
    rw [run]
    refine ⟨path,tracks_pooled valid tracks inside fresh fun through along on_path => ?_⟩
    obtain ⟨fork,chosen,heavy⟩ := chosen_through valid light tracks inside fresh kept walk along on_path
    obtain ⟨height,grown,low,rooted,work⟩ := chosen_path light tracks inside chosen
    have signed := (valid.valid _ (rooted.mono inside)).rest.1
    have light_enough : ¬ isForkHeavier m.blockchain fork = true :=
      fun heavier => weak fork height chosen ⟨heavier,signed,grown.valid.found⟩
    have le : forkWork fork ≤ m.blockchain.latest.cumulativeWork := by
      simpa [isForkHeavier] using light_enough
    have before := tracks.follows.work (light _ ((rooted_old tracks).mono inside))
    have := UInt64.le_iff_toNat_le.mp le
    omega
  | unverifiable off fork chosen e heavier bad run =>
    obtain ⟨height,grown,low,rooted,work⟩ := chosen_path light tracks inside chosen
    rw [checkSignatures_true.mpr (valid.valid _ (rooted.mono inside)).rest.1] at bad
    cases bad
  | reorganized off fork chosen height m' reorg ledger run =>
    rw [run] at regular ⊢
    have settled := settles fork height ⟨off,chosen⟩ reorg.adoptable
    refine ⟨_,tracks_reorganized valid light tracks inside fresh kept chosen reorg regular ?_⟩
    have chain : m'.blockchain = fork.blocks.foldl .addBlock (m.blockchain.cut height) := reorg.blockchain
    rw [ledger,chain,replay_cut]
    exact (agrees_settledLedger_iff (by rw [← replay_eq]; exact tracks.agrees)).mpr settled

end

section
variable {P : Primitives} {params : ConsensusParams} {now : UInt64} {tree : List Block}

theorem tracks_arrive (valid : ValidTree P params now tree) (light : ∀ path, Rooted P tree path → pathWork path < 2 ^ 64)
    {path seen : List Block} {m : ChainManager} {arrival : WalkOrder × Block} (tracks : Tracks P params path seen m)
    (inside : ∀ other ∈ arrival.2 :: seen, other ∈ tree) (fresh : arrival.2 ∉ seen)
    (orderly : Orderly P now (m,seen) arrival) :
    ∃ path', Tracks P params path' (arrival.2 :: seen) (arrive P now (m,seen) arrival).1 := by
  obtain ⟨childless,known,kept,settles⟩ := orderly
  by_cases parent : arrival.2.prevHash = m.blockchain.latest.hash
  · exact ⟨_,tracks_extended valid tracks inside fresh parent (childless parent) (known parent)⟩
  · refine tracks_offTip valid light tracks inside fresh ?_ parent settles
    intro before reached other member
    have old : other ∈ arrival.2 :: seen := reached.2 other (List.mem_append_left _ member)
    refine (kept parent before reached other member).imp_left fun there => ?_
    exact (tracks.follows.hasBlock_iff tracks.indexed (tracks_distinct valid inside)
      (rooted_old tracks) old).mp there

/-! ### All arrivals -/

theorem tracks_run (valid : ValidTree P params now tree) (light : ∀ path, Rooted P tree path → pathWork path < 2 ^ 64)
    {order : List (WalkOrder × Block)} {path seen : List Block} {m : ChainManager} (tracks : Tracks P params path seen m)
    (nodup : ((order.map Prod.snd).reverse ++ seen).Nodup)
    (inside : ∀ other ∈ (order.map Prod.snd).reverse ++ seen, other ∈ tree)
    (orderly : Along (arrive P now) (Orderly P now) (m,seen) order) :
    ∃ path', Tracks P params path' ((order.map Prod.snd).reverse ++ seen) (run (arrive P now) (m,seen) order).1 := by
  induction order generalizing path seen m with
  | nil => exact ⟨path,tracks⟩
  | cons arrival rest ih =>
    rw [List.map_cons,List.reverse_cons,List.append_assoc,List.singleton_append] at nodup inside ⊢
    have later : ∀ other ∈ arrival.2 :: seen, other ∈ tree :=
      fun other member => inside other (List.mem_append_right _ member)
    have fresh : arrival.2 ∉ seen := (List.nodup_cons.mp nodup.of_append_right).1
    obtain ⟨path',next⟩ := tracks_arrive valid light tracks later fresh orderly.1
    exact ih next nodup inside orderly.2

theorem tracks_new (P : Primitives) (mempoolMaxSize : Nat) (params : ConsensusParams) (storage : Option Storage) :
    Tracks P params [] [] (.new P mempoolMaxSize params storage) where
  toInStep := inStep_new P mempoolMaxSize params storage
  params_eq := rfl
  follows := follows_new P
  rooted := rooted_nil
  indexed := Blockchain.indexed_new P
  maxSize := rfl
  pool := by simp [ChainManager.new,OrphanPool.new,OrphanPool.blocks]
  waiting := by simp
  heaviest := by
    intro other along
    have empty : other = [] := List.eq_nil_iff_forall_not_mem.mpr fun block member => by simpa using along.2 block member
    rw [empty]

/-- The work of the tip once the blocks have come in an order. -/
def endWork (P : Primitives) (now : UInt64) (m : ChainManager) (order : List (WalkOrder × Block)) : UInt64 :=
  (run (arrive P now) (m,[]) order).1.blockchain.latest.cumulativeWork

theorem isGreatest_endWork (valid : ValidTree P params now tree)
    (light : ∀ path, Rooted P tree path → pathWork path < 2 ^ 64)
    {order : List (WalkOrder × Block)} {mempoolMaxSize : Nat} {storage : Option Storage}
    (perm : (order.map Prod.snd).Perm tree)
    (orderly : Along (arrive P now) (Orderly P now) (.new P mempoolMaxSize params storage,[]) order) :
    IsGreatest { work | ∃ path, Rooted P tree path ∧ pathWork path = work }
      (endWork P now (.new P mempoolMaxSize params storage) order).toNat := by
  have same : ∀ block, block ∈ (order.map Prod.snd).reverse ++ [] ↔ block ∈ tree := by
    intro block
    rw [List.append_nil,List.mem_reverse,perm.mem_iff]
  have nodup : ((order.map Prod.snd).reverse ++ []).Nodup := by
    rw [List.append_nil,List.nodup_reverse,perm.nodup_iff]
    exact valid.nodup
  obtain ⟨path,tracks⟩ := tracks_run valid light (tracks_new P mempoolMaxSize params storage) nodup
    (fun block member => (same block).mp member) orderly
  have rooted : Rooted P tree path := tracks.rooted.mono fun block member => (same block).mp member
  have work : (endWork P now (.new P mempoolMaxSize params storage) order).toNat = pathWork path :=
    tracks.follows.work (light path rooted)
  rw [work]
  constructor
  · exact ⟨path,rooted,rfl⟩
  · rintro _ ⟨other,along,rfl⟩
    exact tracks.heaviest other (along.mono fun block member => (same block).mpr member)

/-- Orderly arrivals of the same tree end with the same work on the tip, in any
    order, and it is the most that a path of the tree has. -/
theorem endWork_any_order {order order' : List (WalkOrder × Block)} {size size' : Nat} {storage storage' : Option Storage}
    (valid : ValidTree P params now tree) (light : ∀ path, Rooted P tree path → pathWork path < 2 ^ 64)
    (perm : (order.map Prod.snd).Perm tree) (perm' : (order'.map Prod.snd).Perm tree)
    (orderly : Along (arrive P now) (Orderly P now) (.new P size params storage,[]) order)
    (orderly' : Along (arrive P now) (Orderly P now) (.new P size' params storage',[]) order') :
    endWork P now (.new P size params storage) order = endWork P now (.new P size' params storage') order' ∧
      IsGreatest { work | ∃ path, Rooted P tree path ∧ pathWork path = work }
        (endWork P now (.new P size params storage) order).toNat := by
  have first := isGreatest_endWork valid light perm orderly
  have second := isGreatest_endWork valid light perm' orderly'
  exact ⟨UInt64.toNat_inj.mp (first.unique second),first⟩

/-- A valid path is a tree of its own. -/
theorem validTree_of_path {path : List Block} (few : path.length < kMaxForkDepth) (distinct : Distinct P path)
    (linked : Blockchain.Linked (Block.genesis P).hash path) (valid : ValidPath P params now path) :
    ValidTree P params now path := by
  have whole : Rooted P path path := ⟨linked,fun _ member => member⟩
  have upTo : ∀ block ∈ path, ∃ before after,
      path = (before ++ [block]) ++ after ∧ Rooted P path (before ++ [block]) := by
    intro block member
    obtain ⟨before,after,split⟩ := List.append_of_mem member
    have along : Rooted P path (before ++ block :: after) := split ▸ whole
    exact ⟨before,after,by simpa using split,along.upTo⟩
  refine ⟨distinct.nodup whole,few,distinct,?_,?_⟩
  · intro block member
    obtain ⟨before,-,-,reached⟩ := upTo block member
    exact ⟨before,reached⟩
  · intro other rooted
    cases other using List.reverseRecOn with
    | nil => exact ValidPath.start path valid
    | append_singleton start block =>
      -- The path up to the block is the only one to it.
      obtain ⟨before,after,split,reached⟩ := upTo block (rooted.2 block (by simp))
      rw [distinct.unique_to rooted reached]
      rw [split] at valid
      exact valid.start after

end

/-- Blocks that come one after another. -/
def arrivals (blocks : List Block) : List (WalkOrder × Block) := blocks.map fun block => (reading.walk,block)

theorem siblings_distinct : Distinct sample [plainA,plainB] := ⟨by decide +kernel,by decide +kernel⟩

/-- Two blocks on the genesis block have no path through both. -/
theorem siblings_paths {path : List Block} (rooted : Rooted sample [plainA,plainB] path) :
    path = [] ∨ path = [plainA] ∨ path = [plainB] := by
  have childless : ∀ block ∈ [plainA,plainB], ∀ child ∈ [plainA,plainB], child.prevHash ≠ block.hash := by decide +kernel
  rcases path with _ | ⟨block,_ | ⟨child,rest⟩⟩
  · exact .inl rfl
  · have member := rooted.2 block (by simp)
    simp only [List.mem_cons,List.not_mem_nil,or_false] at member
    rcases member with rfl | rfl
    · exact .inr (.inl rfl)
    · exact .inr (.inr rfl)
  · obtain ⟨-,parent,-⟩ := rooted.1
    exact absurd parent (childless block (rooted.2 block (by simp)) child (rooted.2 child (by simp)))

theorem siblings_valid : ValidTree sample testParams 2000 [plainA,plainB] := by
  refine ⟨by decide +kernel,by decide,siblings_distinct,?_,?_⟩
  · have linked : ∀ block ∈ [plainA,plainB], block.prevHash = (Block.genesis sample).hash := by decide +kernel
    intro block member
    exact ⟨[],⟨linked block member,trivial⟩,by simpa using member⟩
  · intro path rooted
    rcases siblings_paths rooted with rfl | rfl | rfl
    · exact ValidPath.start [plainB] plainB_valid
    · exact ValidPath.start [plainA2] plainA_valid
    · exact plainB_valid

/-- The first of two siblings extends the chain, the second one is no heavier. -/
theorem siblings_orderly (first second : Block) (same : [first,second].Perm [plainA,plainB])
    (on_tip : first.prevHash = start.blockchain.latest.hash)
    (known : Along tryTransaction Knows start.ledger first.transactions)
    (off_tip : second.prevHash ≠ (start.submitBlock sample reading first).2.blockchain.latest.hash)
    (best : ((start.submitBlock sample reading first).2.pooled second).bestFork sample 2000
      (ChainManager.findForkTips ((start.submitBlock sample reading first).2.pooled second).orphanPool reading.walk second)
      none = .ok (some ⟨[second],Block.genesis sample⟩))
    (light : isForkHeavier (start.submitBlock sample reading first).2.blockchain ⟨[second],Block.genesis sample⟩ = false) :
    Along (arrive sample 2000) (Orderly sample 2000) (start,[]) (arrivals [first,second]) := by
  refine ⟨⟨?_,fun _ => known,fun off => absurd on_tip off,?_⟩,
    ⟨fun on => absurd on off_tip,fun on => absurd on off_tip,?_,?_⟩,trivial⟩
  · intro _ child member
    cases member
  · rintro fork height ⟨off,-⟩
    exact absurd on_tip off.parent
  · intro _ path rooted block member
    have swapped : ∀ other ∈ [second,first], other ∈ [plainA,plainB] :=
      fun other inside => same.mem_iff.mp (by simpa [or_comm] using inside)
    have short : path = [] := by
      rcases siblings_paths (rooted.mono swapped) with none | one | one
      · simp at none
      · exact (List.append_eq_singleton_iff.mp one).elim (fun h => h.1) (fun h => by simp at h)
      · exact (List.append_eq_singleton_iff.mp one).elim (fun h => h.1) (fun h => by simp at h)
    rw [short] at member
    cases member
  · rintro fork height ⟨-,-,chosen⟩ ⟨heavier,-⟩
    have same_fork := Option.some.inj (Except.ok.inj (best.symm.trans chosen))
    rw [← same_fork] at heavier
    exact absurd (heavier.symm.trans light) (by simp)

theorem endWork_siblings :
    endWork sample 2000 start (arrivals [plainA,plainB]) = endWork sample 2000 start (arrivals [plainB,plainA]) ∧
      IsGreatest { work | ∃ path, Rooted sample [plainA,plainB] path ∧ pathWork path = work }
        (endWork sample 2000 start (arrivals [plainA,plainB])).toNat := by
  have light : ∀ path, Rooted sample [plainA,plainB] path → pathWork path < 2 ^ 64 := by
    intro path rooted
    rcases siblings_paths rooted with rfl | rfl | rfl <;> decide +kernel
  have orderly := siblings_orderly plainA plainB (by decide +kernel) (by decide +kernel)
    (by decide +kernel) (by decide +kernel) (by decide +kernel) (by decide +kernel)
  have orderly' := siblings_orderly plainB plainA (by decide +kernel) (by decide +kernel)
    (by decide +kernel) (by decide +kernel) (by decide +kernel) (by decide +kernel)
  have perm : ((arrivals [plainA,plainB]).map Prod.snd).Perm [plainA,plainB] := by decide +kernel
  have perm' : ((arrivals [plainB,plainA]).map Prod.snd).Perm [plainA,plainB] := by decide +kernel
  unfold start at orderly orderly' ⊢
  exact endWork_any_order siblings_valid light perm perm' orderly orderly'

/-- A parent that comes after its child extends the tip without it, and the
    child stays in the orphan pool. -/
theorem endWork_child_first :
    ValidTree sample testParams 2000 [plainA,plainA2] ∧ pathWork [plainA,plainA2] = 32 ∧
      endWork sample 2000 start (arrivals [plainA,plainA2]) = 32 ∧
      endWork sample 2000 start (arrivals [plainA2,plainA]) = 16 := by
  have distinct : Distinct sample [plainA,plainA2] := ⟨by decide +kernel,by decide +kernel⟩
  have linked : Blockchain.Linked (Block.genesis sample).hash [plainA,plainA2] :=
    ⟨by decide +kernel,by decide +kernel,trivial⟩
  exact ⟨validTree_of_path (by decide) distinct linked plainA_valid,by decide +kernel,by decide +kernel,by decide +kernel⟩

end ForgeChain.Arrival
