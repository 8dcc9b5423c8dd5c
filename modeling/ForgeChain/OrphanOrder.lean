import ForgeChain.Fifo
import ForgeChain.Runs
import ForgeChain.Samples

/-!
The two structures of the orphan pool, the order list and the hash table, keep
one list of blocks between them: a bounded one, oldest first, with a block in
the place of its hash (`pool_is_fifo`). A position in the table is that of the
node with the same hash, so what is erased through it is what is meant.
-/
namespace ForgeChain.OrphanOrder
open Fifo Runs Samples

/-- A call that changes an orphan pool. -/
inductive OrphanCall where
  | addOrphan (block : Block)
  | removeOrphan (hash : HashBytes)

def after (pool : OrphanPool) : OrphanCall → OrphanPool
  | .addOrphan block => pool.addOrphan block
  | .removeOrphan hash => pool.removeOrphan hash

/-- The same on the list of blocks. -/
def reference (limit : Nat) (blocks : List Block) : OrphanCall → List Block
  | .addOrphan block => put Block.hash limit block blocks
  | .removeOrphan hash => remove Block.hash hash blocks

/-- The order list has the hashes of the blocks, the table has the blocks, and
    every position in the table is that of the one node with its hash. -/
structure Mirrors (pool : OrphanPool) (blocks : List Block) : Prop where
  order : pool.order.map OrderNode.hash = blocks.map Block.hash
  distinct : (blocks.map Block.hash).Nodup
  found : ∀ hash, pool.findOrphan hash = find Block.hash hash blocks
  ids : (pool.order.map OrderNode.id).Nodup
  old : ∀ node ∈ pool.order, node.id < pool.fresh
  positions : ∀ hash entry, pool.orphans.lookup hash = some entry → ⟨entry.pos,hash⟩ ∈ pool.order

section
variable {pool : OrphanPool} {blocks : List Block} {block : Block} {hash : HashBytes}

theorem mirrors_new (maxSize : Nat) : Mirrors (.new maxSize) [] where
  order := rfl
  distinct := List.nodup_nil
  found _ := rfl
  ids := List.nodup_nil
  old _ member := by cases member
  positions hash entry found := by cases found

theorem lookup_eq_none (mirrors : Mirrors pool blocks) :
    pool.orphans.lookup hash = none ↔ hash ∉ blocks.map Block.hash := by
  rw [← find_eq_none,← mirrors.found hash,OrphanPool.findOrphan,Option.map_eq_none_iff]

theorem Mirrors.mem_of_lookup (mirrors : Mirrors pool blocks) {entry : Entry}
    (known : pool.orphans.lookup hash = some entry) : hash ∈ blocks.map Block.hash := by
  by_contra absent
  rw [(lookup_eq_none mirrors).mpr absent] at known
  cases known

/-! ### The number of blocks -/

theorem Mirrors.keyed (mirrors : Mirrors pool blocks) : pool.Keyed := by
  intro hash block found
  rw [mirrors.found] at found
  exact (find_some found).2

theorem Mirrors.perm (mirrors : Mirrors pool blocks) : pool.blocks.Perm blocks := by
  refine (List.perm_ext_iff_of_nodup mirrors.keyed.nodup_blocks (.of_map _ mirrors.distinct)).mpr fun block => ?_
  rw [mirrors.keyed.mem_blocks,mirrors.found]
  exact ⟨fun found => (find_some found).1,find_of_mem mirrors.distinct⟩

theorem Mirrors.count (mirrors : Mirrors pool blocks) : pool.orphanCount = blocks.length := by
  rw [OrphanPool.orphanCount_eq,mirrors.perm.length_eq]

/-! ### Each operation -/

theorem lookup_of_erase {orphans : AList fun _ : HashBytes => Entry} {gone : HashBytes} {entry : Entry}
    (found : (orphans.erase gone).lookup hash = some entry) : hash ≠ gone ∧ orphans.lookup hash = some entry := by
  have differs : hash ≠ gone := by
    rintro rfl
    rw [AList.lookup_erase] at found
    cases found
  rw [AList.lookup_erase_ne differs] at found
  exact ⟨differs,found⟩

/-- A block of a known hash takes the place of the one that is there. -/
theorem Mirrors.replaced (mirrors : Mirrors pool blocks) {entry : Entry}
    (known : pool.orphans.lookup block.hash = some entry) :
    Mirrors { pool with orphans := pool.orphans.insert block.hash { entry with block } }
      (replace Block.hash block blocks) where
  order := by rw [map_replace,mirrors.order]
  distinct := by rw [map_replace]; exact mirrors.distinct
  found hash := by
    rw [OrphanPool.findOrphan_replace]
    by_cases same : hash = block.hash
    · subst same
      rw [if_pos rfl,find_replace_self (mirrors.mem_of_lookup known)]
    · rw [if_neg same,find_replace_ne same,mirrors.found]
  ids := mirrors.ids
  old := mirrors.old
  positions hash stored found := by
    dsimp only at found ⊢
    by_cases same : hash = block.hash
    · subst same
      rw [AList.lookup_insert] at found
      obtain rfl := Option.some.inj found
      exact mirrors.positions _ entry known
    · rw [AList.lookup_insert_ne same] at found
      exact mirrors.positions hash stored found

theorem Mirrors.evicted {first : Block} (mirrors : Mirrors pool (first :: blocks)) : Mirrors pool.evict blocks := by
  rcases order : pool.order with _ | ⟨oldest,rest⟩
  · have := mirrors.order
    rw [order] at this
    cases this
  have heads := mirrors.order
  rw [order,List.map_cons,List.map_cons,List.cons.injEq] at heads
  obtain ⟨same_hash,rest_hashes⟩ := heads
  have evict_eq : pool.evict = { pool with order := rest, orphans := pool.orphans.erase oldest.hash } := by
    rw [OrphanPool.evict,order]
  have ids := mirrors.ids
  rw [order,List.map_cons,List.nodup_cons] at ids
  rw [evict_eq]
  exact
    { order := rest_hashes
      distinct := (List.nodup_cons.mp mirrors.distinct).2
      found := fun hash => by
        rw [find_tail mirrors.distinct,← same_hash,← mirrors.found]
        rw [← evict_eq,OrphanPool.findOrphan_evict,order]
        simp [eq_comm]
      ids := ids.2
      old := fun node member => mirrors.old node (by rw [order]; exact List.mem_cons_of_mem _ member)
      positions := fun hash entry found => by
        dsimp only at found ⊢
        obtain ⟨other,before⟩ := lookup_of_erase found
        have member := mirrors.positions hash entry before
        rw [order] at member
        rcases List.mem_cons.mp member with equal | later
        · exact absurd (congrArg OrderNode.hash equal) other
        · exact later }

/-- A block of a new hash comes last. -/
theorem Mirrors.pushed (mirrors : Mirrors pool blocks) (new : block.hash ∉ blocks.map Block.hash) :
    Mirrors (pool.push block) (blocks ++ [block]) where
  order := by
    rw [OrphanPool.push,List.map_append,List.map_append,mirrors.order]
    rfl
  distinct := by
    rw [List.map_append]
    exact mirrors.distinct.append (List.nodup_singleton _) (List.disjoint_singleton.mpr new)
  found hash := by rw [OrphanPool.findOrphan_push,find_concat new,mirrors.found]
  ids := by
    rw [OrphanPool.push,List.map_append]
    refine mirrors.ids.append (List.nodup_singleton _) (List.disjoint_singleton.mpr fun member => ?_)
    obtain ⟨node,inside,same⟩ := List.mem_map.mp member
    exact absurd (mirrors.old node inside) (by rw [same]; exact Nat.lt_irrefl _)
  old node member := by
    rcases List.mem_append.mp member with before | last
    · exact Nat.lt_succ_of_lt (mirrors.old node before)
    · rw [List.mem_singleton.mp last]
      exact Nat.lt_succ_self _
  positions hash entry found := by
    rw [OrphanPool.push] at found
    dsimp only at found
    by_cases same : hash = block.hash
    · subst same
      rw [AList.lookup_insert] at found
      obtain rfl := Option.some.inj found
      exact List.mem_append_right _ (List.mem_singleton_self _)
    · rw [AList.lookup_insert_ne same] at found
      exact List.mem_append_left _ (mirrors.positions hash entry found)

theorem Mirrors.addOrphan (mirrors : Mirrors pool blocks) (positive : 0 < pool.maxSize) (block : Block) :
    Mirrors (pool.addOrphan block) (put Block.hash pool.maxSize block blocks) := by
  rw [OrphanPool.addOrphan,put]
  rcases known : pool.orphans.lookup block.hash with _ | entry
  · have new := (lookup_eq_none mirrors).mp known
    rw [if_neg new,append,mirrors.count]
    dsimp only
    split
    · rename_i full
      cases blocks with
      | nil => exact absurd full (Nat.not_le.mpr positive)
      | cons first rest => exact mirrors.evicted.pushed fun member => new (List.mem_cons_of_mem _ member)
    · exact mirrors.pushed new
  · rw [if_pos (mirrors.mem_of_lookup known)]
    exact mirrors.replaced known

/-- The node at a stored position is the one with the hash. -/
theorem Mirrors.at_position (mirrors : Mirrors pool blocks) {entry : Entry}
    (known : pool.orphans.lookup hash = some entry) {node : OrderNode} (member : node ∈ pool.order) :
    node.id = entry.pos ↔ node.hash = hash := by
  have own := mirrors.positions hash entry known
  have hashes : (pool.order.map OrderNode.hash).Nodup := mirrors.order ▸ mirrors.distinct
  constructor
  · intro same
    rw [List.inj_on_of_nodup_map mirrors.ids member own same]
  · intro same
    rw [List.inj_on_of_nodup_map hashes member own same]

theorem Mirrors.removeOrphan (mirrors : Mirrors pool blocks) (hash : HashBytes) :
    Mirrors (pool.removeOrphan hash) (remove Block.hash hash blocks) := by
  have found : ∀ other,
      (pool.removeOrphan hash).findOrphan other = find Block.hash other (remove Block.hash hash blocks) := by
    intro other
    rw [OrphanPool.findOrphan_removeOrphan,find_remove,mirrors.found]
  rcases known : pool.orphans.lookup hash with _ | entry
  · rw [OrphanPool.removeOrphan,known,remove_of_notMem ((lookup_eq_none mirrors).mp known)]
    exact mirrors
  · have remove_eq : pool.removeOrphan hash =
        { pool with order := pool.order.filter (·.id ≠ entry.pos), orphans := pool.orphans.erase hash } := by
      rw [OrphanPool.removeOrphan,known]
    -- What is erased through the position is the node of the hash.
    have by_hash : pool.order.filter (·.id ≠ entry.pos) = remove OrderNode.hash hash pool.order := by
      refine List.filter_congr fun node member => ?_
      simpa using mirrors.at_position known member
    rw [remove_eq] at found ⊢
    exact
      { order := by
          dsimp only
          rw [by_hash,map_remove,map_remove,mirrors.order]
        distinct := nodup_remove hash mirrors.distinct
        found
        ids := (List.filter_sublist.map OrderNode.id).nodup mirrors.ids
        old := fun node member => mirrors.old node (List.mem_of_mem_filter member)
        positions := fun other stored lookup => by
          dsimp only at lookup ⊢
          obtain ⟨differs,before⟩ := lookup_of_erase lookup
          rw [by_hash]
          exact List.mem_filter.mpr ⟨mirrors.positions other stored before,by simpa using differs⟩ }

/-! ### Whole runs -/

theorem maxSize_after (pool : OrphanPool) (call : OrphanCall) : (after pool call).maxSize = pool.maxSize := by
  cases call with
  | addOrphan block => exact OrphanPool.maxSize_addOrphan pool block
  | removeOrphan hash => exact OrphanPool.maxSize_foldl_removeOrphan [hash] pool

theorem Mirrors.after (mirrors : Mirrors pool blocks) (positive : 0 < pool.maxSize) (call : OrphanCall) :
    Mirrors (OrphanOrder.after pool call) (reference pool.maxSize blocks call) := by
  cases call with
  | addOrphan block => exact mirrors.addOrphan positive block
  | removeOrphan hash => exact mirrors.removeOrphan hash

theorem Mirrors.run (mirrors : Mirrors pool blocks) (positive : 0 < pool.maxSize) (calls : List OrphanCall) :
    Mirrors (Runs.run OrphanOrder.after pool calls) (Runs.run (reference pool.maxSize) blocks calls) := by
  induction calls generalizing pool blocks with
  | nil => exact mirrors
  | cons call rest ih =>
    have size := maxSize_after pool call
    have later := ih (mirrors.after positive call) (by rwa [size])
    rw [size] at later
    exact later

theorem length_reference {limit : Nat} (positive : 0 < limit) (calls : List OrphanCall) :
    (Runs.run (reference limit) [] calls).length ≤ limit := by
  refine run_keeps (motive := fun blocks : List Block => blocks.length ≤ limit) (fun blocks call short => ?_) calls
    (Nat.zero_le _)
  cases call with
  | addOrphan block => exact length_put positive block short
  | removeOrphan hash => exact (List.length_filter_le _ _).trans short

end

/-- After any calls an orphan pool is the list of blocks that the same calls
    make of the empty one. -/
theorem pool_is_fifo {capacity : Nat} (positive : 1 ≤ capacity) (calls : List OrphanCall) :
    let pool := run after (OrphanPool.new capacity) calls
    let blocks := run (reference capacity) [] calls
    pool.order.map OrderNode.hash = blocks.map Block.hash ∧ pool.blocks.Perm blocks ∧
      (∀ hash, pool.findOrphan hash = blocks.find? fun block => block.hash = hash) ∧
      (∀ walk hash, (pool.childrenOf walk hash).Perm (blocks.filter fun block => block.prevHash = hash)) ∧
      (pool.order.map OrderNode.hash).Nodup ∧ (pool.order.map OrderNode.hash).Perm pool.orphans.keys ∧
      (∀ hash entry, pool.orphans.lookup hash = some entry →
        (∃ node ∈ pool.order, node.id = entry.pos) ∧ ∀ node ∈ pool.order, node.id = entry.pos ↔ node.hash = hash) ∧
      pool.orphanCount = blocks.length ∧ pool.orphanCount ≤ capacity := by
  intro pool blocks
  have mirrors : Mirrors pool blocks := (mirrors_new capacity).run positive calls
  have hashes : (pool.order.map OrderNode.hash).Nodup := mirrors.order ▸ mirrors.distinct
  refine ⟨mirrors.order,mirrors.perm,mirrors.found,fun walk hash => ?_,hashes,?_,fun hash entry known => ?_,
    mirrors.count,?_⟩
  · exact ((walk.perm pool.blocks).trans mirrors.perm).filter _
  · refine (List.perm_ext_iff_of_nodup hashes pool.orphans.nodupKeys).mpr fun hash => ?_
    rw [mirrors.order,← not_iff_not,← lookup_eq_none mirrors,AList.lookup_eq_none]
    rfl
  · exact ⟨⟨_,mirrors.positions hash entry known,rfl⟩,fun node member => mirrors.at_position known member⟩
  · rw [mirrors.count]
    exact length_reference positive calls

/-- Replacing the oldest block does not make it younger, and it is the next one
    to go. -/
theorem pool_is_fifo_two :
    let calls := [.addOrphan plainA,.addOrphan plainB,.addOrphan { plainA with nonce := 0 },.addOrphan plainA2,
      .removeOrphan plainB.hash]
    (run after (OrphanPool.new 2) calls).order.map OrderNode.hash = [plainA2.hash] ∧
      (run after (OrphanPool.new 2) calls).orphanCount ≤ 2 :=
  ⟨by decide +kernel,(pool_is_fifo (by decide) _).2.2.2.2.2.2.2.2⟩

end ForgeChain.OrphanOrder
