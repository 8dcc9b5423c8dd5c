import ForgeChain.Replay
import ForgeChain.BlockTree

/-!
The chain and the orphan pool while the blocks of a tree of valid paths come in
one by one: the chain follows a heaviest path through the blocks so far
(`Tracks`). For a new block with a path to it the fork tips of the pool give a
candidate at least as heavy as any path through the block (`candidates_cover`).
-/
namespace ForgeChain.Arrival
open Tally Replay BlockTree

section
variable (P : Primitives) (params : ConsensusParams) (now : UInt64)

/-- A tree over the genesis block, small enough to be traced, all of whose paths
    are valid. -/
structure ValidTree (blocks : List Block) : Prop where
  nodup : blocks.Nodup
  few : blocks.length < kMaxForkDepth
  distinct : Distinct P blocks
  rooted : ∀ block ∈ blocks, ∃ path, Rooted P blocks (path ++ [block])
  valid : ∀ path, Rooted P blocks path → ValidPath P params now path

end

/-- The chain follows a heaviest path through the blocks that came so far, and
    blocks that no path leads to wait in the orphan pool. -/
structure Tracks (P : Primitives) (params : ConsensusParams) (path seen : List Block) (m : ChainManager) : Prop
    extends InStep P m where
  params_eq : m.params = params
  follows : Follows P m.blockchain path
  rooted : Rooted P seen path
  indexed : m.blockchain.Indexed
  maxSize : m.orphanPool.maxSize = kDefaultMaxOrphans
  pool : ∀ block ∈ m.orphanPool.blocks, block ∈ seen ∧ block ∉ path
  waiting : ∀ block ∈ seen, (∀ before, ¬ Rooted P seen (before ++ [block])) → block ∈ m.orphanPool.blocks
  heaviest : ∀ other, Rooted P seen other → pathWork other ≤ pathWork path

section
variable {P : Primitives} {params : ConsensusParams} {now : UInt64} {tree path seen : List Block} {m : ChainManager}
  {block : Block} {walk : WalkOrder}

/-! ### A block comes that is new -/

/-- A path through a new block ends nowhere an old path does. -/
theorem not_old {through old : List Block} (distinct : Distinct P (block :: seen)) (fresh : block ∉ seen)
    (rooted : Rooted P (block :: seen) through) (on_path : block ∈ through) (before : Rooted P seen old) :
    endHash P old ≠ endHash P through := by
  intro same
  have grown := before.mono fun other member => List.mem_cons_of_mem block member
  obtain rfl := distinct.unique grown rooted same
  exact fresh (before.2 block on_path)

variable (valid : ValidTree P params now tree) (light : ∀ path, Rooted P tree path → pathWork path < 2 ^ 64)
  (tracks : Tracks P params path seen m) (inside : ∀ other ∈ block :: seen, other ∈ tree) (fresh : block ∉ seen)
include valid tracks inside fresh

omit tracks fresh in
theorem tracks_distinct : Distinct P (block :: seen) := valid.distinct.mono inside

omit tracks in
theorem new_hash {other : Block} (member : other ∈ seen) : other.hash ≠ block.hash := by
  intro same
  have := (tracks_distinct valid inside).hashes other (by simp [member]) block (by simp) same
  exact fresh (this ▸ member)

omit valid inside fresh in
theorem rooted_old : Rooted P (block :: seen) path := tracks.rooted.mono fun _ member => List.mem_cons_of_mem _ member

omit fresh in
theorem pool_room : m.orphanPool.orphanCount < m.orphanPool.maxSize := by
  have subset : m.orphanPool.blocks ⊆ tree := fun other member => inside other (by simp [(tracks.pool other member).1])
  have le := (List.subperm_of_subset tracks.keyed.nodup_blocks subset).length_le
  have few := valid.few
  rw [OrphanPool.orphanCount_eq,tracks.maxSize]
  unfold kMaxForkDepth at few
  unfold kDefaultMaxOrphans
  omega

/-- The pool has room, so the new block displaces nothing. -/
theorem mem_pooled {other : Block} :
    other ∈ (m.pooled block).orphanPool.blocks ↔ other = block ∨ other ∈ m.orphanPool.blocks := by
  have keyed := tracks.keyed
  show other ∈ (m.orphanPool.addOrphan block).blocks ↔ _
  rw [(keyed.addOrphan block).mem_blocks,keyed.mem_blocks]
  constructor
  · intro found
    exact (OrphanPool.findOrphan_of_addOrphan found).imp_left And.right
  · rintro (rfl | found)
    · exact OrphanPool.findOrphan_addOrphan_self _ _
    · have old := (tracks.pool other (keyed.mem_blocks.mpr found)).1
      rwa [OrphanPool.findOrphan_addOrphan_room (pool_room valid tracks inside)
        (new_hash valid inside fresh old)]

theorem pooled_off {other : Block} (member : other ∈ (m.pooled block).orphanPool.blocks) : other ∉ path := by
  rcases (mem_pooled valid tracks inside fresh).mp member with rfl | old
  · exact fun on_chain => fresh (tracks.rooted.2 other on_chain)
  · exact (tracks.pool other old).2

/-- Blocks that no path leads to wait, the new one included. -/
theorem pooled_waiting {other : Block} (member : other ∈ block :: seen)
    (unreached : ∀ before, ¬ Rooted P (block :: seen) (before ++ [other])) :
    other ∈ (m.pooled block).orphanPool.blocks := by
  rw [mem_pooled valid tracks inside fresh]
  rcases List.mem_cons.mp member with rfl | old
  · exact .inl rfl
  · refine .inr (tracks.waiting other old fun way reached => unreached way ?_)
    exact reached.mono fun _ => List.mem_cons_of_mem _

theorem mem_pooled_seen {other : Block} (member : other ∈ (m.pooled block).orphanPool.blocks) :
    other ∈ block :: seen := by
  rcases (mem_pooled valid tracks inside fresh).mp member with rfl | old
  · simp
  · exact List.mem_cons_of_mem _ (tracks.pool other old).1

/-- What comes behind the new block on a path could not be reached before, so
    it waits. -/
theorem behind_waits {before : List Block} {other : Block} (along : Rooted P (block :: seen) (before ++ [other]))
    (through : block ∈ before) : other ∈ m.orphanPool.blocks := by
  have distinct := tracks_distinct valid inside
  have apart := List.disjoint_of_nodup_append (distinct.nodup along)
  have old : other ∈ seen := by
    refine (List.mem_cons.mp (along.2 other (by simp))).resolve_left ?_
    rintro rfl
    exact apart through (List.mem_singleton_self _)
  refine tracks.waiting other old fun way reached => ?_
  exact not_old distinct fresh along (List.mem_append_left _ through) reached (by rw [endHash_concat,endHash_concat])

omit fresh in
theorem find_none {other : Block} (member : other ∈ block :: seen) (off : other ∉ path) :
    m.blockchain.find other.hash = none := by
  cases found : m.blockchain.find other.hash with
  | none => rfl
  | some old =>
    have there := tracks.indexed.find_eq.mp found
    have has := (tracks.indexed.hasBlock_iff other.hash).mpr ⟨old,there⟩
    exact absurd ((tracks.follows.hasBlock_iff tracks.indexed (tracks_distinct valid inside)
      (rooted_old tracks) member).mp has) off

/-! ### Candidates -/

omit fresh in
include light in
/-- A path through the chain and the pool is traced back from its end, and all
    of it is valid. -/
theorem candidate_of_path {before : List Block} {tip : Block} (rooted : Rooted P (block :: seen) (before ++ [tip]))
    (there : ∀ other ∈ before, other ∈ path ∨ other ∈ (m.pooled block).orphanPool.blocks) :
    ∃ fork, Candidate P (m.pooled block) now tip fork ∧ (forkWork fork).toNat = pathWork (before ++ [tip]) := by
  obtain rfl := tracks.params_eq
  have distinct := tracks_distinct valid inside
  obtain ⟨start,parent,member⟩ := rooted_concat.mp rooted
  obtain ⟨shared,rest,others,rfl,along,apart⟩ := distinct.parting start (rooted_old tracks)
  have height : shared.length ≤ path.length := by simp [along]
  have taken : path.take shared.length = shared := by simp [along]
  -- The path leaves the chain at the last block that they share.
  obtain ⟨ancestor,at_height⟩ : ∃ ancestor, m.blockchain.blocks[shared.length]? = some ancestor :=
    ⟨_,List.getElem?_eq_getElem (by have := tracks.follows.size_eq; unfold Blockchain.size at this; omega)⟩
  obtain ⟨hash,work⟩ := tracks.follows.getElem? at_height
  rw [taken] at hash work
  have found : m.blockchain.find ancestor.hash = some ancestor :=
    tracks.indexed.find_eq.mpr ⟨List.mem_of_getElem? at_height,rfl⟩
  have height_eq : m.blockchain.findHeight ancestor.hash = some shared.length :=
    (tracks.indexed _ _).mpr (by rw [at_height]; rfl)
  have linked : Blockchain.Linked ancestor.hash rest := by
    rw [hash]
    exact (rooted_append.mp start).2.1
  have waiting : ∀ other ∈ rest, (m.pooled block).orphanPool.findOrphan other.hash = some other ∧
      m.blockchain.find other.hash = none := by
    intro other is_rest
    have pooled := (there other (by simp [is_rest])).resolve_left (apart other is_rest)
    refine ⟨(tracks.keyed.addOrphan block).mem_blocks.mp pooled,?_⟩
    exact find_none valid tracks inside (start.2 other (by simp [is_rest])) (apart other is_rest)
  have short : rest.length < kMaxForkDepth := by
    have whole := valid.distinct.length_le (start.mono inside)
    have few := valid.few
    simp only [List.length_append] at whole
    omega
  have traced : buildForkChain m.blockchain (m.pooled block).orphanPool tip = some ⟨rest ++ [tip],ancestor⟩ := by
    have top : tip.prevHash = Blockchain.topHash ancestor.hash rest := by
      rw [parent,hash,endHash,endHash,Blockchain.topHash_append]
    rw [buildForkChain,top]
    exact traceFork_of_path rest found waiting linked short
  have whole : path.take shared.length ++ (rest ++ [tip]) = shared ++ rest ++ [tip] := by
    rw [taken,List.append_assoc]
  have valid_path := valid.valid _ (rooted.mono inside)
  rw [← whole] at valid_path
  obtain ⟨len,long,cut⟩ := truncate_keeps (P := P) (m := m.pooled block) tracks.sound
    ⟨rest ++ [tip],ancestor⟩ now height_eq (by simp) le_rfl
    (fun i other _ at_i => valid_path.fits_branch tracks.follows height at_i)
  rw [List.take_of_length_le long] at cut
  refine ⟨⟨rest ++ [tip],ancestor⟩,⟨_,traced,cut⟩,?_⟩
  have same : forkWork ⟨rest ++ [tip],ancestor⟩ =
      (shared ++ rest ++ [tip]).foldl (fun work block => work + block.blockWork) 0 := by
    rw [forkWork,work,List.append_assoc,List.foldl_append (l := shared)]
  rw [same,foldl_work (by simpa using light _ (rooted.mono inside))]
  simp

/-- Descendants in the pool go on with a path. -/
theorem path_below {before : List Block} {node last : Block} (rooted : Rooted P (block :: seen) (before ++ [node]))
    (below : Forest.Below (childrenIn (m.pooled block).orphanPool walk) node last) :
    ∃ longer, Rooted P (block :: seen) (longer ++ [last]) ∧ (before ++ [node]) <+: (longer ++ [last]) ∧
      ∀ other ∈ longer ++ [last], other ∈ before ++ [node] ∨ other ∈ (m.pooled block).orphanPool.blocks := by
  induction below with
  | refl => exact ⟨before,rooted,List.prefix_rfl,fun _ member => .inl member⟩
  | @tail last child _ is_child ih =>
    obtain ⟨longer,grown,goes_on,members⟩ := ih
    obtain ⟨pooled,parent⟩ := OrphanPool.mem_childrenOf.mp is_child
    refine ⟨longer ++ [last],?_,goes_on.trans (List.prefix_append _ _),?_⟩
    · rw [rooted_concat,endHash_concat]
      exact ⟨grown,parent,mem_pooled_seen valid tracks inside fresh pooled⟩
    · intro other member
      rcases List.mem_append.mp member with earlier | new
      · exact members other earlier
      · obtain rfl := List.mem_singleton.mp new
        exact .inr pooled

omit valid tracks inside fresh in
/-- A path that goes on through the pool leads to a descendant. -/
theorem below_of_path {pool : OrphanPool} (walk : WalkOrder) (before : List Block) {node : Block} (after : List Block)
    (linked : Blockchain.Linked node.hash after) (pooled : ∀ other ∈ after, other ∈ pool.blocks) :
    ∃ longer last, before ++ node :: after = longer ++ [last] ∧ Forest.Below (childrenIn pool walk) node last := by
  induction after generalizing before node with
  | nil => exact ⟨before,node,rfl,.refl⟩
  | cons child after ih =>
    obtain ⟨first,later⟩ := List.forall_mem_cons.mp pooled
    obtain ⟨longer,last,same,below⟩ := ih (before ++ [node]) linked.2 later
    exact ⟨longer,last,by simpa using same,.head (OrphanPool.mem_childrenOf.mpr ⟨first,linked.1⟩) below⟩

/-- Seen from a new block with a path to it, the pool is a forest. -/
theorem pending (walk : WalkOrder) {before : List Block} (rooted : Rooted P (block :: seen) (before ++ [block])) :
    ∃ unvisited : Finset Block, unvisited.card ≤ kMaxForkDepth ∧
      Forest.Pending (childrenIn (m.pooled block).orphanPool walk) unvisited [block] := by
  have distinct := tracks_distinct valid inside
  have child_seen : ∀ node child, child ∈ childrenIn (m.pooled block).orphanPool walk node → child ∈ block :: seen :=
    fun node child is_child => mem_pooled_seen valid tracks inside fresh (OrphanPool.mem_childrenOf.mp is_child).1
  have apart : ∀ node, Forest.Below (childrenIn (m.pooled block).orphanPool walk) block node →
      ∀ child ∈ childrenIn (m.pooled block).orphanPool walk node, child.hash ≠ block.hash := by
    -- The path to a descendant goes through the block and cannot come back to it.
    intro node under child is_child same
    obtain rfl := distinct.hashes child (child_seen node child is_child) block (by simp) same
    obtain ⟨longer,grown,goes_on,-⟩ := path_below valid tracks inside fresh rooted under
    obtain ⟨-,parent⟩ := OrphanPool.mem_childrenOf.mp is_child
    have again : Rooted P (child :: seen) (longer ++ [node] ++ [child]) := by
      rw [rooted_concat,endHash_concat]
      exact ⟨grown,parent,by simp⟩
    have lengths := goes_on.length_le
    rw [distinct.unique_to rooted again] at lengths
    simp at lengths
  obtain ⟨unvisited,member_iff,forest⟩ := pending_below (tracks.keyed.addOrphan block) walk apart
  refine ⟨unvisited,?_,forest⟩
  have subset : unvisited ⊆ tree.toFinset := by
    intro other member
    refine List.mem_toFinset.mpr (inside other ?_)
    rcases Relation.ReflTransGen.cases_tail ((member_iff other).mp member) with rfl | ⟨parent,-,is_child⟩
    · simp
    · exact child_seen parent other is_child
  have few := valid.few
  have := (Finset.card_le_card subset).trans (List.toFinset_card_le tree)
  omega

include light in
/-- For every path through a new block, one at least as heavy is among the
    candidates. -/
theorem candidates_cover {before through : List Block} (rooted : Rooted P (block :: seen) (before ++ [block]))
    (kept : ∀ other ∈ before, other ∈ path ∨ other ∈ m.orphanPool.blocks)
    (along : Rooted P (block :: seen) through) (on_path : block ∈ through) :
    ∃ tip ∈ ChainManager.findForkTips (m.pooled block).orphanPool walk block, ∃ fork,
      Candidate P (m.pooled block) now tip fork ∧ pathWork through ≤ (forkWork fork).toNat := by
  have pooled := @mem_pooled P params now tree path seen m block valid tracks inside fresh
  obtain ⟨start,after,rfl⟩ := List.append_of_mem on_path
  have split : start ++ block :: after = (start ++ [block]) ++ after := by simp
  rw [split] at along
  obtain ⟨first,linked,-⟩ := rooted_append.mp along
  obtain rfl : before = start := (tracks_distinct valid inside).unique_to rooted first
  have after_pooled : ∀ other ∈ after, other ∈ (m.pooled block).orphanPool.blocks := by
    intro other member
    obtain ⟨left,right,rfl⟩ := List.append_of_mem member
    rw [← List.append_assoc] at along
    exact pooled.mpr (.inr (behind_waits valid tracks inside fresh along.upTo (by simp)))
  rw [endHash_concat] at linked
  obtain ⟨longer,last,whole,below⟩ := below_of_path walk before after linked after_pooled
  obtain ⟨unvisited,enough,forest⟩ := pending valid tracks inside fresh walk rooted
  obtain ⟨tip,is_tip,under⟩ := Forest.ends_cover forest enough (List.mem_singleton_self block) below
  rw [← findForkTips_eq] at is_tip
  rw [← split,whole] at along
  obtain ⟨longest,grown,goes_on,members⟩ := path_below valid tracks inside fresh along under
  have there : ∀ other ∈ longest, other ∈ path ∨ other ∈ (m.pooled block).orphanPool.blocks := by
    intro other member
    rcases members other (List.mem_append_left _ member) with early | late
    · rw [← whole] at early
      rcases List.mem_append.mp early with ancestor | later
      · exact (kept other ancestor).imp_right fun old => pooled.mpr (.inr old)
      · rcases List.mem_cons.mp later with rfl | descendant
        · exact .inr (pooled.mpr (.inl rfl))
        · exact .inr (after_pooled other descendant)
    · exact .inr late
  obtain ⟨fork,candidate,work⟩ := candidate_of_path valid light tracks inside grown there
  refine ⟨tip,is_tip,fork,candidate,?_⟩
  obtain ⟨more,longer_eq⟩ := goes_on
  rw [work,whole,← longer_eq,pathWork_append (longer ++ [last])]
  exact Nat.le_add_right _ _

include light in
/-- With a path to a new block there is a branch to weigh, no lighter than any
    path through the block. -/
theorem chosen_exists (walk : WalkOrder) {before : List Block} (rooted : Rooted P (block :: seen) (before ++ [block]))
    (kept : ∀ other ∈ before, other ∈ path ∨ other ∈ m.orphanPool.blocks) :
    ∃ fork, Chosen P m ⟨now,walk⟩ block fork ∧
      ∀ through, Rooted P (block :: seen) through → block ∈ through → pathWork through ≤ (forkWork fork).toNat := by
  have cover := @candidates_cover P params now tree path seen m block walk valid light tracks inside fresh before
  obtain ⟨own,⟨full,traced,-⟩,-⟩ := candidate_of_path valid light tracks inside rooted
    fun other member => (kept other member).imp_right fun old => (mem_pooled valid tracks inside fresh).mpr (.inr old)
  rcases bestFork_spec P (m.pooled block) now tracks.sound
    (ChainManager.findForkTips (m.pooled block).orphanPool walk block) with ⟨-,nothing⟩ | ⟨fork,best,-,heaviest⟩
  · obtain ⟨tip,is_tip,other,candidate,-⟩ := cover rooted kept rooted (by simp)
    exact absurd candidate (nothing tip is_tip other)
  · refine ⟨fork,⟨⟨full,traced⟩,best⟩,?_⟩
    intro through along on_path
    obtain ⟨tip,is_tip,other,candidate,le⟩ := cover rooted kept along on_path
    exact le.trans (UInt64.le_iff_toNat_le.mp (heaviest tip is_tip other candidate))

omit valid fresh in
include light in
/-- The branch that is weighed goes on with a part of the chain's path. -/
theorem chosen_path {fork : ForkChain} (chosen : Chosen P m ⟨now,walk⟩ block fork) :
    ∃ height, Grown P m now fork height ∧ height ≤ path.length ∧
      Rooted P (block :: seen) (path.take height ++ fork.blocks) ∧
      (forkWork fork).toNat = pathWork (path.take height ++ fork.blocks) := by
  obtain ⟨height,grown,members⟩ := chosen.grown tracks.toRegular
  have given : ∀ other ∈ fork.blocks, other ∈ block :: seen := by
    intro other member
    rcases members other member with same | pooled
    · simp [same]
    · exact List.mem_cons_of_mem _ (tracks.pool other (tracks.keyed.mem_blocks.mpr pooled)).1
  obtain ⟨low,rooted⟩ := tracks.follows.grown tracks.sound (rooted_old tracks) grown given
  refine ⟨height,grown,low,rooted,?_⟩
  rw [forkWork,(tracks.follows.getElem? grown.ancestor).2,← List.foldl_append,
    foldl_work (by simpa using light _ (rooted.mono inside))]
  simp

end
end ForgeChain.Arrival
