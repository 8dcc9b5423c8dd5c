import ForgeChain.Branches
import ForgeChain.OrphanOrder
import Mathlib.Data.Set.Card

/-!
The two walks over the orphan pool, one to the parents and one to the children.
A branch is built from a block exactly where its parents lead through the pool
to the chain, within the depth limit (`buildForkChain_exact`). The tips found
from a block lie on every line of its descendants, and they are the childless
ones unless there are too many (`findForkTips_covers`).
-/
namespace ForgeChain.PoolWalks
open Runs OrphanOrder Samples

theorem keyed_run (capacity : Nat) (calls : List OrphanCall) : (run after (OrphanPool.new capacity) calls).Keyed := by
  refine run_keeps (fun pool call keyed => ?_) calls (OrphanPool.keyed_new capacity)
  cases call with
  | addOrphan block => exact keyed.addOrphan block
  | removeOrphan hash => exact keyed.foldl_removeOrphan [hash]

/-! ### From a block to the chain -/

/-- A hash leads to a block of the chain, over blocks of the pool that are not
    in the chain. The path has the oldest block first. -/
inductive Leads (chain : Blockchain) (pool : OrphanPool) : HashBytes → List Block → Block → Prop
  | home {hash : HashBytes} {ancestor : Block} (stored : ancestor ∈ chain.blocks) (own : ancestor.hash = hash) :
    Leads chain pool hash [] ancestor
  | hop {hash : HashBytes} {block : Block} {path : List Block} {ancestor : Block}
    (outside : ∀ stored ∈ chain.blocks, stored.hash ≠ hash) (pooled : block ∈ pool.blocks) (own : block.hash = hash)
    (rest : Leads chain pool block.prevHash path ancestor) : Leads chain pool hash (path ++ [block]) ancestor

section
variable {chain : Blockchain} {pool : OrphanPool} {hash : HashBytes} {path : List Block} {ancestor : Block}

theorem find_eq_none (indexed : chain.Indexed) :
    chain.find hash = none ↔ ∀ stored ∈ chain.blocks, stored.hash ≠ hash := by
  rw [Option.eq_none_iff_forall_not_mem]
  simp [indexed.find_eq]

theorem findOrphan_eq (keyed : pool.Keyed) {block : Block} :
    pool.findOrphan hash = some block ↔ block ∈ pool.blocks ∧ block.hash = hash := by
  rw [keyed.mem_blocks]
  constructor
  · intro found
    have own := keyed hash block found
    exact ⟨own ▸ found,own⟩
  · rintro ⟨found,rfl⟩
    exact found

/-- The loop finds what the hash leads to within the rounds that are left. -/
theorem traceFork_exact (indexed : chain.Indexed) (keyed : pool.Keyed) {left : Nat} {branch : List Block}
    {fork : ForkChain} :
    traceFork chain pool left branch hash = some fork ↔
      ∃ path, Leads chain pool hash path fork.commonAncestor ∧ path.length < left ∧ fork.blocks = path ++ branch := by
  induction left generalizing branch hash with
  | zero => simp [traceFork]
  | succ left ih =>
    rw [traceFork]
    cases found : chain.find hash with
    | some ancestor =>
      obtain ⟨stored,own⟩ := indexed.find_eq.mp found
      constructor
      · rintro same
        obtain rfl := Option.some.inj same
        exact ⟨[],.home stored own,Nat.succ_pos left,rfl⟩
      · rintro ⟨path,leads,-,blocks⟩
        cases leads with
        | home stored' own' =>
          have same := found.symm.trans (indexed.find_eq.mpr ⟨stored',own'⟩)
          cases fork
          simp_all
        | hop outside => exact absurd own (outside ancestor stored)
    | none =>
      have outside := (find_eq_none indexed).mp found
      cases orphan : pool.findOrphan hash with
      | none =>
        refine iff_of_false (by simp) ?_
        rintro ⟨path,leads,-,-⟩
        cases leads with
        | home stored own => exact absurd own (outside _ stored)
        | hop _ pooled own =>
          have := orphan.symm.trans ((findOrphan_eq keyed).mpr ⟨pooled,own⟩)
          cases this
      | some block =>
        obtain ⟨pooled,own⟩ := (findOrphan_eq keyed).mp orphan
        rw [ih]
        constructor
        · rintro ⟨path,leads,short,blocks⟩
          exact ⟨path ++ [block],.hop outside pooled own leads,by simpa using short,by simpa using blocks⟩
        · rintro ⟨path,leads,short,blocks⟩
          cases leads with
          | home stored own => exact absurd own (outside _ stored)
          | hop _ pooled' own' rest =>
            have same := orphan.symm.trans ((findOrphan_eq keyed).mpr ⟨pooled',own'⟩)
            obtain rfl := Option.some.inj same
            exact ⟨_,rest,by simpa using short,by simpa using blocks⟩

theorem Leads.stored (leads : Leads chain pool hash path ancestor) : ancestor ∈ chain.blocks := by
  induction leads with
  | home stored _ => exact stored
  | hop _ _ _ _ ih => exact ih

theorem Leads.outside (leads : Leads chain pool hash path ancestor) :
    ∀ block ∈ path, ∀ stored ∈ chain.blocks, stored.hash ≠ block.hash := by
  induction leads with
  | home _ _ => simp
  | hop outside _ own _ ih =>
    intro block member
    rcases List.mem_append.mp member with earlier | last
    · exact ih block earlier
    · rw [List.mem_singleton.mp last,own]
      exact outside

/-- The path starts at the ancestor and ends at the hash. -/
theorem Leads.linked (leads : Leads chain pool hash path ancestor) :
    Blockchain.Linked ancestor.hash path ∧ Blockchain.topHash ancestor.hash path = hash := by
  induction leads with
  | home _ own => exact ⟨trivial,own⟩
  | hop _ _ own _ ih =>
    exact ⟨Blockchain.linked_append.mpr ⟨ih.1,ih.2.symm,trivial⟩,by simpa [Blockchain.topHash] using own⟩

/-- A branch is built from a block if and only if its parents lead over fewer
    than `kMaxForkDepth` blocks of the pool to the chain. It is this path with
    the block on top. -/
theorem buildForkChain_exact {chain : Blockchain} (indexed : chain.Indexed) (capacity : Nat)
    (calls : List OrphanCall) (tip : Block) :
    let pool := run after (OrphanPool.new capacity) calls
    (∀ fork, buildForkChain chain pool tip = some fork ↔
      ∃ path, Leads chain pool tip.prevHash path fork.commonAncestor ∧ path.length ≤ kMaxForkDepth - 1 ∧
        fork.blocks = path ++ [tip]) ∧
    ∀ fork, buildForkChain chain pool tip = some fork →
      fork.blocks.getLast? = some tip ∧
      fork.blocks.IsChain (fun parent block => block.prevHash = parent.hash) ∧
      fork.blocks.head?.map Block.prevHash = some fork.commonAncestor.hash ∧
      fork.commonAncestor ∈ chain.blocks ∧
      ∀ block ∈ fork.blocks.dropLast, ∀ stored ∈ chain.blocks, stored.hash ≠ block.hash := by
  intro pool
  have exact_path : ∀ fork, buildForkChain chain pool tip = some fork ↔
      ∃ path, Leads chain pool tip.prevHash path fork.commonAncestor ∧ path.length ≤ kMaxForkDepth - 1 ∧
        fork.blocks = path ++ [tip] := by
    intro fork
    rw [buildForkChain,traceFork_exact indexed (show pool.Keyed from keyed_run capacity calls)]
    simp only [kMaxForkDepth,Nat.lt_iff_le_pred (show 0 < 100 by decide)]
  refine ⟨exact_path,fun fork built => ?_⟩
  obtain ⟨path,leads,-,blocks⟩ := (exact_path fork).mp built
  obtain ⟨linked,top⟩ := leads.linked
  have whole : Blockchain.Linked fork.commonAncestor.hash (path ++ [tip]) :=
    Blockchain.linked_append.mpr ⟨linked,top.symm,trivial⟩
  rw [blocks]
  refine ⟨List.getLast?_concat,whole.isChain,?_,leads.stored,?_⟩
  · cases path with
    | nil => exact congrArg some whole.1
    | cons first rest => exact congrArg some whole.1
  · rw [List.dropLast_concat]
    exact leads.outside

/-- From the second block of a branch, over the first one in the pool, to the
    genesis block. -/
theorem buildForkChain_exact_two :
    let pool := run after (OrphanPool.new 4) [.addOrphan plainA,.addOrphan plainB]
    buildForkChain (.new sample) pool plainA2 = some ⟨[plainA,plainA2],Block.genesis sample⟩ ∧
      Block.genesis sample ∈ (Blockchain.new sample).blocks :=
  have built := by decide +kernel
  ⟨built,((buildForkChain_exact (Blockchain.indexed_new sample) 4 [.addOrphan plainA,.addOrphan plainB] plainA2).2
    ⟨[plainA,plainA2],Block.genesis sample⟩ built).2.2.2.1⟩

/-- A block of the pool that is its own parent leads nowhere. -/
example :
    let own : Block := { plainA with prevHash := plainA.hash }
    buildForkChain (.new sample) (run after (OrphanPool.new 4) [.addOrphan own]) plainA2 = none := by decide +kernel

/-! ### From a block to the tips -/

/-- A block of the pool names the other one as its parent. -/
def Child (pool : OrphanPool) (parent child : Block) : Prop := child ∈ pool.blocks ∧ child.prevHash = parent.hash

/-- The second block descends from the first through the pool. -/
def Descends (pool : OrphanPool) : Block → Block → Prop := Relation.TransGen (Child pool)

def Acyclic (pool : OrphanPool) : Prop := ∀ block, ¬Descends pool block block

variable {walk : WalkOrder} {start block : Block}

theorem below_iff : Forest.Below (childrenIn pool walk) start block ↔ block = start ∨ Descends pool start block := by
  have same : (fun node child => child ∈ childrenIn pool walk node) = Child pool := by
    funext node child
    exact propext OrphanPool.mem_childrenOf
  rw [Forest.Below,same,Relation.reflTransGen_iff_eq_or_transGen]
  rfl

theorem childless_iff : childrenIn pool walk block = [] ↔ ∀ child, ¬Child pool block child := by
  rw [List.eq_nil_iff_forall_not_mem]
  exact forall_congr' fun child => not_congr OrphanPool.mem_childrenOf

/-- Without cycles the hash of a block does not come up again below it. -/
theorem Acyclic.apart (acyclic : Acyclic pool) {node child : Block}
    (below : Forest.Below (childrenIn pool walk) start node) (is_child : child ∈ childrenIn pool walk node) :
    child.hash ≠ start.hash := by
  intro same
  -- The first block on the way to the child would also be a child of it.
  obtain ⟨first,⟨pooled,parent⟩,rest⟩ :
      ∃ first, Child pool start first ∧ Relation.ReflTransGen (Child pool) first child := by
    have step : Child pool node child := OrphanPool.mem_childrenOf.mp is_child
    rcases below_iff.mp below with rfl | descends
    · exact ⟨child,step,.refl⟩
    · obtain ⟨first,onto,way⟩ := Relation.TransGen.head'_iff.mp descends
      exact ⟨first,onto,way.tail step⟩
  exact acyclic child (.head' ⟨pooled,parent.trans same.symm⟩ rest)

/-- No cycle closes where a number rises from parent to child. -/
theorem acyclic_of_rising (rank : Block → Nat) (rises : ∀ parent ∈ pool.blocks, ∀ child ∈ pool.blocks,
    child.prevHash = parent.hash → rank parent < rank child) : Acyclic pool := by
  intro block round
  obtain ⟨last,-,pooled,-⟩ := Relation.TransGen.tail'_iff.mp round
  have rising : ∀ other, Descends pool block other → other ∈ pool.blocks ∧ rank block < rank other := by
    intro other descends
    induction descends with
    | single step => exact ⟨step.1,rises block pooled _ step.1 step.2⟩
    | tail _ step ih => exact ⟨step.1,ih.2.trans (rises _ ih.1 _ step.1 step.2)⟩
  exact lt_irrefl _ (rising block round).2

/-- Every tip is the block or descends from it, none comes twice, every
    descendant is on a line with a tip, and where the walk can visit them all
    the tips are the blocks without children. -/
theorem findForkTips_covers {capacity : Nat} {calls : List OrphanCall}
    (acyclic : Acyclic (run after (OrphanPool.new capacity) calls)) (walk : WalkOrder) (start : Block) :
    let pool := run after (OrphanPool.new capacity) calls
    let tips := ChainManager.findForkTips pool walk start
    (∀ tip ∈ tips, tip = start ∨ Descends pool start tip) ∧ tips.Nodup ∧
      (∀ block, Descends pool start block →
        ∃ tip ∈ tips, Descends pool block tip ∨ Descends pool tip block ∨ block = tip) ∧
      (Set.ncard {block | Descends pool start block} < kMaxForkDepth →
        ∀ block, block ∈ tips ↔ (block = start ∨ Descends pool start block) ∧ ∀ child, ¬Child pool block child) := by
  classical
  intro pool tips
  obtain ⟨unvisited,member_iff,forest⟩ := pending_below (show pool.Keyed from keyed_run capacity calls) walk
    fun node below child is_child => acyclic.apart below is_child
  have on_stack : start ∈ [start] := List.mem_singleton_self start
  have walked : tips = Forest.ends (childrenIn pool walk) kMaxForkDepth [start] [] := findForkTips_eq pool walk start
  refine ⟨fun tip member => below_iff.mp (below_of_findForkTips member),?_,?_,?_⟩
  · rw [walked]
    exact Forest.nodup_ends forest List.nodup_nil (by simp)
  · intro block descends
    obtain ⟨tip,is_tip,under | above⟩ := Forest.ends_comparable on_stack (below_iff.mpr (.inr descends)) []
    · exact ⟨tip,walked ▸ is_tip,(below_iff.mp under).elim (fun same => .inr (.inr same.symm)) .inl⟩
    · exact ⟨tip,walked ▸ is_tip,(below_iff.mp above).elim (fun same => .inr (.inr same)) fun far => .inr (.inl far)⟩
  · intro few
    -- The walk visits the descendants and the block itself.
    have enough : unvisited.card ≤ kMaxForkDepth := by
      have all : (unvisited : Set Block) = insert start {block | Descends pool start block} := by
        ext block
        exact (member_iff block).trans below_iff
      have := Set.ncard_insert_le start {block | Descends pool start block}
      rw [← all,Set.ncard_coe_finset] at this
      omega
    intro block
    rw [walked]
    constructor
    · intro is_tip
      have childless := Forest.ends_childless forest enough (by simp) is_tip
      exact ⟨below_iff.mp (below_of_findForkTips (walked ▸ is_tip)),childless_iff.mp childless⟩
    · rintro ⟨below,childless⟩
      obtain ⟨tip,is_tip,under⟩ := Forest.ends_cover forest enough on_stack (below_iff.mpr below)
      rcases below_iff.mp under with rfl | descends
      · exact is_tip
      · obtain ⟨child,is_child,-⟩ := Relation.TransGen.head'_iff.mp descends
        exact absurd is_child (childless child)

/-- Two branches of two blocks each, along which the timestamps rise. -/
theorem findForkTips_covers_two :
    let pool := run after (OrphanPool.new 4) [.addOrphan plainA,.addOrphan plainB,.addOrphan plainA2,.addOrphan plainB2]
    let tips := ChainManager.findForkTips pool ⟨id,fun _ => .rfl⟩ (Block.genesis sample)
    Acyclic pool ∧ tips.map Block.hash = [plainA2.hash,plainB2.hash] ∧ tips.Nodup :=
  have acyclic := acyclic_of_rising (fun block => block.timestamp.toNat) (by decide +kernel)
  ⟨acyclic,by decide +kernel,(findForkTips_covers acyclic ⟨id,fun _ => .rfl⟩ (Block.genesis sample)).2.1⟩

end
end ForgeChain.PoolWalks
