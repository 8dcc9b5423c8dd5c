import ForgeChain.Block
import Mathlib.Data.List.AList

/-!
The orphan pool of `src/core/OrphanPool.cpp`: blocks by hash, and the hashes in
the order they came in. A node of the order list is told from other nodes by a
number that is never used again, which is what a stored position refers to.
The hash table has no order of its own: whatever walks over it is given the
order in which this walk meets the blocks.
-/
namespace ForgeChain

def kDefaultMaxOrphans : Nat := 1000

/-- A node of `std::list<HashBytes>`. -/
structure OrderNode where
  id : Nat
  hash : HashBytes
  deriving DecidableEq

structure Entry where
  block : Block
  /-- The node of the order list that holds the block's hash. -/
  pos : Nat
  deriving DecidableEq

structure OrphanPool where
  order : List OrderNode
  orphans : AList fun _ : HashBytes => Entry
  maxSize : Nat
  /-- The next node's number. -/
  fresh : Nat
  deriving DecidableEq

/-- The order in which a walk over the hash table meets its blocks. -/
structure WalkOrder where
  arrange : List Block → List Block
  perm : ∀ blocks, (arrange blocks).Perm blocks

namespace OrphanPool

def new (maxSize : Nat) : OrphanPool := ⟨[],∅,maxSize,0⟩

def orphanCount (pool : OrphanPool) : Nat := pool.orphans.entries.length

/-- The oldest hash leaves the order list, and its block the table. -/
def evict (pool : OrphanPool) : OrphanPool :=
  match pool.order with
  | [] => pool
  | oldest :: rest => { pool with order := rest, orphans := pool.orphans.erase oldest.hash }

/-- A hash enters the order list at the end, and its block the table. -/
def push (pool : OrphanPool) (block : Block) : OrphanPool :=
  { pool with
    order := pool.order ++ [⟨pool.fresh,block.hash⟩]
    orphans := pool.orphans.insert block.hash ⟨block,pool.fresh⟩
    fresh := pool.fresh + 1 }

def addOrphan (pool : OrphanPool) (block : Block) : OrphanPool :=
  match pool.orphans.lookup block.hash with
  | some entry => { pool with orphans := pool.orphans.insert block.hash { entry with block } }
  | none => (if pool.orphanCount ≥ pool.maxSize then pool.evict else pool).push block

def hasOrphan (pool : OrphanPool) (hash : HashBytes) : Bool := (pool.orphans.lookup hash).isSome

def findOrphan (pool : OrphanPool) (hash : HashBytes) : Option Block := (pool.orphans.lookup hash).map Entry.block

def removeOrphan (pool : OrphanPool) (hash : HashBytes) : OrphanPool :=
  match pool.orphans.lookup hash with
  | none => pool
  | some entry =>
    { pool with order := pool.order.filter (·.id ≠ entry.pos), orphans := pool.orphans.erase hash }

/-- The blocks of the table. -/
def blocks (pool : OrphanPool) : List Block := pool.orphans.entries.map fun entry => entry.2.block

def childrenOf (pool : OrphanPool) (walk : WalkOrder) (hash : HashBytes) : List Block :=
  (walk.arrange pool.blocks).filter (·.prevHash = hash)

/-! ### What the pool holds -/

section
variable {pool : OrphanPool} {block other : Block} {hash : HashBytes}

theorem mem_blocks : other ∈ pool.blocks ↔ ∃ hash, pool.findOrphan hash = some other := by
  simp only [blocks,findOrphan,List.mem_map,Option.map_eq_some_iff]
  constructor
  · rintro ⟨⟨key,entry⟩,member,rfl⟩
    exact ⟨key,entry,AList.mem_lookup_iff.mpr member,rfl⟩
  · rintro ⟨key,entry,found,rfl⟩
    exact ⟨⟨key,entry⟩,AList.mem_lookup_iff.mp found,rfl⟩

theorem mem_childrenOf {walk : WalkOrder} :
    other ∈ pool.childrenOf walk hash ↔ other ∈ pool.blocks ∧ other.prevHash = hash := by
  simp [childrenOf,(walk.perm pool.blocks).mem_iff]

theorem findOrphan_push (pool : OrphanPool) (block : Block) (hash : HashBytes) :
    (pool.push block).findOrphan hash = if hash = block.hash then some block else pool.findOrphan hash := by
  unfold findOrphan push
  by_cases same : hash = block.hash
  · subst same
    simp
  · simp [same,AList.lookup_insert_ne same]

/-- Evicting takes the block of the oldest hash out and nothing else. -/
theorem findOrphan_evict (pool : OrphanPool) (hash : HashBytes) :
    pool.evict.findOrphan hash =
      if pool.order.head?.map OrderNode.hash = some hash then none else pool.findOrphan hash := by
  unfold evict
  rcases pool.order with _ | ⟨oldest,rest⟩
  · rfl
  · by_cases same : hash = oldest.hash
    · subst same
      simp [findOrphan]
    · simp [findOrphan,AList.lookup_erase_ne same,Ne.symm same]

/-- A block in the place of the one with its hash. -/
theorem findOrphan_replace (pool : OrphanPool) (block : Block) (entry : Entry) (hash : HashBytes) :
    findOrphan { pool with orphans := pool.orphans.insert block.hash { entry with block } } hash =
      if hash = block.hash then some block else pool.findOrphan hash := by
  unfold findOrphan
  by_cases same : hash = block.hash
  · subst same
    simp
  · simp [same,AList.lookup_insert_ne same]

/-- Adding a block to the pool evicts the block of a hash: the pool is full, the
    block is not in it, and the hash is the oldest one. -/
def Evicts (pool : OrphanPool) (block : Block) (hash : HashBytes) : Prop :=
  pool.hasOrphan block.hash = false ∧ pool.maxSize ≤ pool.orphanCount ∧
    pool.order.head?.map OrderNode.hash = some hash

instance (pool : OrphanPool) (block : Block) (hash : HashBytes) : Decidable (pool.Evicts block hash) :=
  inferInstanceAs (Decidable (_ ∧ _ ∧ _))

theorem findOrphan_addOrphan (pool : OrphanPool) (block : Block) (hash : HashBytes) :
    (pool.addOrphan block).findOrphan hash =
      if hash = block.hash then some block else if pool.Evicts block hash then none else pool.findOrphan hash := by
  unfold addOrphan
  rcases known : pool.orphans.lookup block.hash with _ | entry
  · have new : pool.hasOrphan block.hash = false := by rw [hasOrphan,known,Option.isSome_none]
    dsimp only
    rw [findOrphan_push]
    by_cases full : pool.orphanCount ≥ pool.maxSize
    · simp only [full,if_true,findOrphan_evict,Evicts,new,true_and]
    · simp only [full,if_false,Evicts,false_and,and_false]
  · have there : pool.hasOrphan block.hash = true := by rw [hasOrphan,known,Option.isSome_some]
    simp only [findOrphan_replace,Evicts,there,Bool.true_eq_false,false_and,if_false]

theorem findOrphan_addOrphan_self (pool : OrphanPool) (block : Block) :
    (pool.addOrphan block).findOrphan block.hash = some block := by
  rw [findOrphan_addOrphan,if_pos rfl]

/-- Whatever is in the pool after adding a block is that block or was there. -/
theorem findOrphan_of_addOrphan (found : (pool.addOrphan block).findOrphan hash = some other) :
    (hash = block.hash ∧ other = block) ∨ pool.findOrphan hash = some other := by
  rw [findOrphan_addOrphan] at found
  split at found
  · rename_i same
    exact .inl ⟨same,(Option.some.inj found).symm⟩
  · split at found
    · cases found
    · exact .inr found

/-- While there is room, adding a block leaves the others in the pool. -/
theorem findOrphan_addOrphan_room (room : pool.orphanCount < pool.maxSize) (differs : hash ≠ block.hash) :
    (pool.addOrphan block).findOrphan hash = pool.findOrphan hash := by
  rw [findOrphan_addOrphan,if_neg differs,if_neg fun evicts => Nat.not_le.mpr room evicts.2.1]

theorem findOrphan_removeOrphan (pool : OrphanPool) (removed hash : HashBytes) :
    (pool.removeOrphan removed).findOrphan hash = if hash = removed then none else pool.findOrphan hash := by
  unfold removeOrphan
  by_cases same : hash = removed
  · subst same
    split
    · rename_i absent
      simp [findOrphan,absent]
    · simp [findOrphan]
  · split
    · simp [same]
    · simp [findOrphan,same,AList.lookup_erase_ne same]

theorem findOrphan_foldl_removeOrphan (hashes : List HashBytes) (pool : OrphanPool) (hash : HashBytes) :
    (hashes.foldl removeOrphan pool).findOrphan hash = if hash ∈ hashes then none else pool.findOrphan hash := by
  induction hashes generalizing pool with
  | nil => simp
  | cons removed rest ih =>
    rw [List.foldl_cons,ih,findOrphan_removeOrphan]
    by_cases same : hash = removed
    · simp [same]
    · simp [same]

/-- Every block is kept under its own hash. -/
def Keyed (pool : OrphanPool) : Prop := ∀ hash block, pool.findOrphan hash = some block → block.hash = hash

theorem keyed_new (maxSize : Nat) : (new maxSize).Keyed := by
  intro hash block found
  simp [new,findOrphan] at found

theorem Keyed.addOrphan (keyed : pool.Keyed) (block : Block) : (pool.addOrphan block).Keyed := by
  intro hash other found
  rcases findOrphan_of_addOrphan found with ⟨rfl,rfl⟩ | before
  · rfl
  · exact keyed hash other before

theorem Keyed.foldl_removeOrphan (keyed : pool.Keyed) (hashes : List HashBytes) :
    (hashes.foldl removeOrphan pool).Keyed := by
  intro hash block found
  rw [findOrphan_foldl_removeOrphan] at found
  split at found
  · cases found
  · exact keyed hash block found

theorem Keyed.mem_blocks (keyed : pool.Keyed) : block ∈ pool.blocks ↔ pool.findOrphan block.hash = some block := by
  rw [OrphanPool.mem_blocks]
  constructor
  · rintro ⟨hash,found⟩
    rwa [keyed hash block found]
  · intro found
    exact ⟨_,found⟩

theorem Keyed.mem_foldl_removeOrphan (keyed : pool.Keyed) (hashes : List HashBytes) :
    block ∈ (hashes.foldl removeOrphan pool).blocks ↔ block.hash ∉ hashes ∧ block ∈ pool.blocks := by
  rw [(keyed.foldl_removeOrphan hashes).mem_blocks,keyed.mem_blocks,findOrphan_foldl_removeOrphan]
  by_cases removed : block.hash ∈ hashes
  · simp [removed]
  · simp [removed]

/-- No block is in the pool twice. -/
theorem Keyed.nodup_blocks (keyed : pool.Keyed) : pool.blocks.Nodup := by
  have keys : pool.blocks.map Block.hash = pool.orphans.keys := by
    rw [blocks,List.map_map]
    refine List.map_congr_left fun entry member => ?_
    have found : pool.orphans.lookup entry.1 = some entry.2 := AList.mem_lookup_iff.mpr member
    exact keyed entry.1 entry.2.block (by rw [findOrphan,found]; rfl)
  exact .of_map Block.hash (keys ▸ pool.orphans.nodupKeys)

theorem orphanCount_eq (pool : OrphanPool) : pool.orphanCount = pool.blocks.length := by
  rw [orphanCount,blocks,List.length_map]

theorem maxSize_addOrphan (pool : OrphanPool) (block : Block) : (pool.addOrphan block).maxSize = pool.maxSize := by
  unfold addOrphan
  split
  · rfl
  · simp only [push,evict]
    split
    · split <;> rfl
    · rfl

theorem maxSize_foldl_removeOrphan (hashes : List HashBytes) (pool : OrphanPool) :
    (hashes.foldl removeOrphan pool).maxSize = pool.maxSize := by
  induction hashes generalizing pool with
  | nil => rfl
  | cons hash rest ih =>
    rw [List.foldl_cons,ih,removeOrphan]
    split <;> rfl

end

end OrphanPool
end ForgeChain
