import ForgeChain.Blockchain
import Mathlib.Data.List.Nodup

/-!
The `blocks` table of `src/storage/Storage.cpp`, whose statements succeed. The
height and the hash are unique in it; `INSERT OR REPLACE` deletes the rows that
the new one conflicts with.
-/
namespace ForgeChain

structure Row where
  height : Nat
  hash : HashBytes
  serialized : Bytes
  deriving DecidableEq

structure Storage where
  rows : List Row
  deriving DecidableEq

namespace Storage

def blockCount (storage : Storage) : Nat := storage.rows.length

def saveBlock (storage : Storage) (block : Block) (height : Nat) : Storage where
  rows := storage.rows.filter (fun row => row.height ≠ height ∧ row.hash ≠ block.hash) ++
    [⟨height,block.hash,block.serialize⟩]

def loadBlock (P : Primitives) (storage : Storage) (height : Nat) : Option Block := do
  let row ← storage.rows.find? (·.height = height)
  Block.deserialize P row.serialized

def deleteBlocksFrom (storage : Storage) (height : Nat) : Storage where
  rows := storage.rows.filter (·.height < height)

/-- One save after another, at rising heights. -/
def saveBlocks : Storage → Nat → List Block → Storage
  | storage, _, [] => storage
  | storage, height, block :: rest => saveBlocks (storage.saveBlock block height) (height + 1) rest

def replaceBlocksFrom (storage : Storage) (height : Nat) (blocks : List Block) : Storage :=
  (storage.deleteBlocksFrom height).saveBlocks height blocks

/-! ### Saving blocks over a table -/

/-- The row gives way to none of the blocks saved at rising heights. -/
def Stays (height : Nat) (blocks : List Block) (row : Row) : Prop :=
  (row.height < height ∨ height + blocks.length ≤ row.height) ∧ row.hash ∉ blocks.map Block.hash

instance (height : Nat) (blocks : List Block) : DecidablePred (Stays height blocks) :=
  fun _ => inferInstanceAs (Decidable (_ ∧ _))

theorem stays_cons {height : Nat} {block : Block} {rest : List Block} {row : Row} :
    Stays height (block :: rest) row ↔ (row.height ≠ height ∧ row.hash ≠ block.hash) ∧ Stays (height + 1) rest row := by
  simp only [Stays,List.length_cons,List.map_cons,List.mem_cons,not_or]
  constructor
  · rintro ⟨outside,first,later⟩
    exact ⟨⟨by omega,first⟩,by omega,later⟩
  · rintro ⟨⟨here,first⟩,outside,later⟩
    exact ⟨by omega,first,later⟩

/-- The old rows that stay come first; what the blocks add does not depend on them. -/
theorem saveBlocks_eq (storage : Storage) (height : Nat) (blocks : List Block) :
    (storage.saveBlocks height blocks).rows =
      storage.rows.filter (Stays height blocks ·) ++ ((⟨[]⟩ : Storage).saveBlocks height blocks).rows := by
  induction blocks generalizing storage height with
  | nil =>
    have all : storage.rows.filter (Stays height [] ·) = storage.rows :=
      List.filter_eq_self.mpr fun row _ => decide_eq_true ⟨by simp; omega,by simp⟩
    rw [all]
    exact (List.append_nil _).symm
  | cons block rest ih =>
    rw [saveBlocks,saveBlocks,ih (storage.saveBlock block height),ih (saveBlock ⟨[]⟩ block height),saveBlock,saveBlock,
      List.filter_append,List.filter_filter,List.filter_nil,List.nil_append,List.append_assoc]
    congr 2
    funext row
    rw [← Bool.decide_and,decide_eq_decide,stays_cons,and_comm]

/-- The cumulative work is not stored. -/
theorem saveBlocks_stamp (storage : Storage) (height : Nat) (work : UInt64) (blocks : List Block) :
    storage.saveBlocks height (Blockchain.stamp work blocks) = storage.saveBlocks height blocks := by
  induction blocks generalizing storage height work with
  | nil => rfl
  | cons block rest ih => exact ih (storage.saveBlock block height) (height + 1) (block.blockWork + work)

/-- Replacing the rows from a height on saves the blocks over the table if it
    has nothing above them. -/
theorem replaceBlocksFrom_eq_iff (storage : Storage) (height : Nat) (blocks : List Block) :
    storage.replaceBlocksFrom height blocks = storage.saveBlocks height blocks ↔
      ∀ row ∈ storage.rows, height ≤ row.height → row.height < height + blocks.length ∨ row.hash ∈ blocks.map Block.hash := by
  have rows : storage.replaceBlocksFrom height blocks = storage.saveBlocks height blocks ↔
      (storage.replaceBlocksFrom height blocks).rows = (storage.saveBlocks height blocks).rows :=
    ⟨congrArg rows,fun same => congrArg Storage.mk same⟩
  rw [rows,replaceBlocksFrom,saveBlocks_eq storage,saveBlocks_eq (storage.deleteBlocksFrom height),deleteBlocksFrom,
    List.filter_filter,List.append_left_inj]
  constructor
  · intro same row member low
    by_contra none
    rw [not_or,Nat.not_lt] at none
    -- The row is among those that the blocks leave, so the deletion must have left it too.
    have kept : row ∈ storage.rows.filter (Stays height blocks ·) :=
      List.mem_filter.mpr ⟨member,decide_eq_true ⟨.inr none.1,none.2⟩⟩
    rw [← same,List.mem_filter,Bool.and_eq_true,decide_eq_true_eq,decide_eq_true_eq] at kept
    omega
  · refine fun covered => List.filter_congr fun row member => ?_
    rw [← Bool.decide_and,decide_eq_decide]
    refine ⟨And.left,fun stays => ⟨stays,?_⟩⟩
    by_contra above
    rcases covered row member (by omega) with low | named
    · have := stays.1
      omega
    · exact stays.2 named

/-! ### Tables that hold a chain -/

/-- The row of a block. -/
def rowOf (height : Nat) (block : Block) : Row := ⟨height,block.hash,block.serialize⟩

/-- The rows of blocks at rising heights. -/
def rowsOf : Nat → List Block → List Row
  | _, [] => []
  | height, block :: rest => rowOf height block :: rowsOf (height + 1) rest

theorem rowsOf_append (height : Nat) (left right : List Block) :
    rowsOf height (left ++ right) = rowsOf height left ++ rowsOf (height + left.length) right := by
  induction left generalizing height with
  | nil => rfl
  | cons block rest ih =>
    rw [List.cons_append,rowsOf,ih,rowsOf,List.cons_append,List.length_cons,Nat.add_right_comm,Nat.add_assoc]

theorem mem_rowsOf {height : Nat} {blocks : List Block} {row : Row} (member : row ∈ rowsOf height blocks) :
    (height ≤ row.height ∧ row.height < height + blocks.length) ∧ row.hash ∈ blocks.map Block.hash := by
  induction blocks generalizing height with
  | nil => cases member
  | cons block rest ih =>
    rcases List.mem_cons.mp member with rfl | later
    · exact ⟨⟨le_rfl,by simp [rowOf]⟩,by simp [rowOf]⟩
    · obtain ⟨⟨low,high⟩,hash⟩ := ih later
      refine ⟨⟨by omega,?_⟩,List.mem_cons_of_mem _ hash⟩
      rw [List.length_cons]
      omega

theorem rowsOf_heights (height : Nat) (blocks : List Block) :
    (rowsOf height blocks).map Row.height = List.range' height blocks.length := by
  induction blocks generalizing height with
  | nil => rfl
  | cons block rest ih => rw [rowsOf,List.map_cons,ih,List.length_cons,List.range'_succ]; rfl

/-- What the rows do not show of the blocks does not matter. -/
theorem rowsOf_congr {left right : List Block} (same : left.map (rowOf 0) = right.map (rowOf 0)) (height : Nat) :
    rowsOf height left = rowsOf height right := by
  induction left generalizing right height with
  | nil =>
    rw [List.map_nil,eq_comm,List.map_eq_nil_iff] at same
    rw [same]
  | cons block rest ih =>
    cases right with
    | nil => cases same
    | cons other others =>
      obtain ⟨head,tail⟩ := List.cons.inj same
      obtain ⟨-,hash,serialized⟩ := Row.mk.inj head
      rw [rowsOf,rowsOf,ih tail,rowOf,rowOf,hash,serialized]

variable {storage : Storage} {chain blocks : List Block}

theorem saveBlock_rows {block : Block} (mirrors : storage.rows = rowsOf 0 chain)
    (new : block.hash ∉ chain.map Block.hash) :
    (storage.saveBlock block chain.length).rows = rowsOf 0 (chain ++ [block]) := by
  have kept : storage.rows.filter (fun row => row.height ≠ chain.length ∧ row.hash ≠ block.hash) = storage.rows := by
    refine List.filter_eq_self.mpr fun row member => ?_
    rw [mirrors] at member
    obtain ⟨⟨-,low⟩,hash⟩ := mem_rowsOf member
    rw [decide_eq_true_eq]
    exact ⟨by omega,fun same => new (same ▸ hash)⟩
  rw [saveBlock,kept,mirrors,rowsOf_append,Nat.zero_add]
  rfl

theorem saveBlocks_rows (mirrors : storage.rows = rowsOf 0 chain) (new : ((chain ++ blocks).map Block.hash).Nodup) :
    (storage.saveBlocks chain.length blocks).rows = rowsOf 0 (chain ++ blocks) := by
  induction blocks generalizing storage chain with
  | nil => rw [saveBlocks,List.append_nil,mirrors]
  | cons block rest ih =>
    have split : chain ++ block :: rest = (chain ++ [block]) ++ rest := by simp
    rw [split] at new ⊢
    have absent : block.hash ∉ chain.map Block.hash := by
      intro member
      rw [List.map_append,List.map_append] at new
      exact List.disjoint_of_nodup_append new.of_append_left member (by simp)
    have saved := saveBlock_rows mirrors absent
    rw [saveBlocks]
    have length : chain.length + 1 = (chain ++ [block]).length := by simp
    rw [length]
    exact ih saved new

theorem deleteBlocksFrom_rows (mirrors : storage.rows = rowsOf 0 chain) (height : Nat) :
    (storage.deleteBlocksFrom height).rows = rowsOf 0 (chain.take height) := by
  have split := rowsOf_append 0 (chain.take height) (chain.drop height)
  rw [List.take_append_drop,Nat.zero_add] at split
  rw [deleteBlocksFrom,mirrors,split,List.filter_append]
  have below : (rowsOf 0 (chain.take height)).filter (fun row => decide (row.height < height)) =
      rowsOf 0 (chain.take height) := by
    refine List.filter_eq_self.mpr fun row member => ?_
    obtain ⟨⟨-,low⟩,-⟩ := mem_rowsOf member
    rw [List.length_take] at low
    simp only [decide_eq_true_eq]
    omega
  have above : (rowsOf (chain.take height).length (chain.drop height)).filter
      (fun row => decide (row.height < height)) = [] := by
    refine List.filter_eq_nil_iff.mpr fun row member => ?_
    obtain ⟨⟨low,high⟩,-⟩ := mem_rowsOf member
    rw [List.length_take] at low high
    rw [List.length_drop] at high
    simp only [decide_eq_true_eq]
    omega
  rw [below,above,List.append_nil]

theorem replaceBlocksFrom_rows {height : Nat} (mirrors : storage.rows = rowsOf 0 chain) (inside : height ≤ chain.length)
    (new : ((chain.take height ++ blocks).map Block.hash).Nodup) :
    (storage.replaceBlocksFrom height blocks).rows = rowsOf 0 (chain.take height ++ blocks) := by
  have saved := saveBlocks_rows (deleteBlocksFrom_rows mirrors height) new
  rwa [List.length_take_of_le inside] at saved

/-- A table that holds a chain loads its blocks. -/
theorem loadBlock_rows (P : Primitives) (mirrors : storage.rows = rowsOf 0 chain) {height : Nat} {block : Block}
    (there : chain[height]? = some block) :
    storage.loadBlock P height = Block.deserialize P block.serialize := by
  have found : ∀ (blocks : List Block) (start i : Nat), blocks[i]? = some block →
      (rowsOf start blocks).find? (fun row => decide (row.height = start + i)) = some (rowOf (start + i) block) := by
    intro blocks
    induction blocks with
    | nil =>
      intro start i none
      cases none
    | cons first rest ih =>
      intro start i at_i
      cases i with
      | zero =>
        obtain rfl := Option.some.inj at_i
        simp [rowsOf,rowOf]
      | succ i =>
        have later := ih (start + 1) i at_i
        have shift : start + 1 + i = start + (i + 1) := by omega
        rw [shift] at later
        rw [rowsOf,List.find?_cons_of_neg (by simp [rowOf]),later]
  have row := found chain 0 height there
  rw [Nat.zero_add] at row
  rw [loadBlock,mirrors,row,Option.bind_eq_bind,Option.bind_some,rowOf]

end Storage
end ForgeChain
