import ForgeChain.Block
import Mathlib.Data.Finmap
import Mathlib.Data.UInt

/-!
The chain of `src/core/Blockchain.cpp`: the blocks in order of height and the
index from hashes to heights. `addBlock` sets the cumulative work of the block
it appends and leaves the rest of it alone (`stamp`).
-/
namespace ForgeChain

/-- A competing branch, oldest block first, and the chain block it grows from. -/
structure ForkChain where
  blocks : List Block
  commonAncestor : Block
  deriving DecidableEq

inductive BlockValidation where
  | Valid
  | Invalid
  | ForkCandidate
  deriving DecidableEq

structure Blockchain where
  blocks : List Block
  heightByHash : Finmap fun _ : HashBytes => Nat
  /-- The constructor puts the genesis block in, and nothing takes the last block out. -/
  nonempty : blocks ≠ []
  deriving DecidableEq

namespace Blockchain

def new (P : Primitives) : Blockchain where
  blocks := [Block.genesis P]
  heightByHash := Finmap.singleton (Block.genesis P).hash 0
  nonempty := by simp

def size (chain : Blockchain) : Nat := chain.blocks.length

def latest (chain : Blockchain) : Block := chain.blocks.getLast chain.nonempty

def addBlock (chain : Blockchain) (block : Block) : Blockchain where
  blocks := chain.blocks ++ [{ block with cumulativeWork := block.blockWork + chain.latest.cumulativeWork }]
  heightByHash := chain.heightByHash.insert block.hash chain.blocks.length
  nonempty := by simp

def hasBlock (chain : Blockchain) (hash : HashBytes) : Bool := (chain.heightByHash.lookup hash).isSome

def findHeight (chain : Blockchain) (hash : HashBytes) : Option Nat := chain.heightByHash.lookup hash

def find (chain : Blockchain) (hash : HashBytes) : Option Block := do
  let index ← chain.findHeight hash
  chain.blocks[index]?

/-- `at`, which raises outside the chain. -/
def blockAt (chain : Blockchain) (height : Nat) : Except Exn Block :=
  match chain.blocks[height]? with
  | some block => .ok block
  | none => .error .outOfRange

def classifyNewBlock (P : Primitives) (chain : Blockchain) (block : Block) : BlockValidation :=
  if block.hash ≠ block.computeHash P then .Invalid
  else if ∃ tx ∈ block.transactions.drop 1, tx.isCoinbase then .Invalid
  else if block.prevHash ≠ chain.latest.hash then .ForkCandidate
  else .Valid

/-- The chain up to a height; the index forgets the blocks above it. -/
def cut (chain : Blockchain) (height : Nat) : Blockchain where
  blocks := chain.blocks.take (height + 1)
  heightByHash := (chain.blocks.drop (height + 1)).foldl (fun index block => index.erase block.hash) chain.heightByHash
  nonempty := by simp [chain.nonempty]

/-- The discarded blocks, unless the common ancestor is not in the chain. -/
def reorganizeTo (chain : Blockchain) (fork : ForkChain) : Option (List Block) × Blockchain :=
  match chain.findHeight fork.commonAncestor.hash with
  | none => (none,chain)
  | some height => (some (chain.blocks.drop (height + 1)),fork.blocks.foldl addBlock (chain.cut height))

/-! ### Appending blocks -/

/-- Blocks with the cumulative work they get on top of a chain of that work. -/
def stamp : UInt64 → List Block → List Block
  | _, [] => []
  | work, block :: rest =>
    { block with cumulativeWork := block.blockWork + work } :: stamp (block.blockWork + work) rest

@[simp] theorem stamp_length : ∀ work blocks, (stamp work blocks).length = blocks.length
  | _, [] => rfl
  | _, _ :: rest => by simp [stamp,stamp_length _ rest]

theorem take_stamp (work : UInt64) (blocks : List Block) (len : Nat) :
    (stamp work blocks).take len = stamp work (blocks.take len) := by
  induction blocks generalizing work len with
  | nil => simp [stamp]
  | cons block rest ih =>
    cases len with
    | zero => rfl
    | succ len => simp [stamp,ih]

theorem stamp_append (work : UInt64) (left right : List Block) :
    stamp work (left ++ right) =
      stamp work left ++ stamp (left.foldl (fun work block => work + block.blockWork) work) right := by
  induction left generalizing work with
  | nil => rfl
  | cons block rest ih => simp only [List.cons_append,stamp,ih,List.foldl_cons,add_comm work]

/-- Whatever does not read the cumulative work sees the same blocks. -/
theorem stamp_map {α : Type*} {f : Block → α} (blind : ∀ block work, f { block with cumulativeWork := work } = f block) :
    ∀ work blocks, (stamp work blocks).map f = blocks.map f
  | _, [] => rfl
  | _, _ :: rest => by simp [stamp,blind,stamp_map blind _ rest]

theorem foldl_work_stamp (work start : UInt64) (blocks : List Block) :
    (stamp work blocks).foldl (fun work block => work + block.blockWork) start =
      blocks.foldl (fun work block => work + block.blockWork) start := by
  have works : (stamp work blocks).map Block.blockWork = blocks.map Block.blockWork :=
    stamp_map (fun _ _ => rfl) work blocks
  have each : ∀ list : List Block, list.foldl (fun work block => work + block.blockWork) start =
      (list.map Block.blockWork).foldl (· + ·) start := fun list => List.foldl_map.symm
  rw [each,works,each]

theorem stamp_getElem? {work : UInt64} {blocks : List Block} {i : Nat} {block : Block}
    (there : (stamp work blocks)[i]? = some block) :
    ∃ plain, blocks[i]? = some plain ∧ block = { plain with cumulativeWork := block.cumulativeWork } := by
  induction blocks generalizing work i with
  | nil => simp [stamp] at there
  | cons first rest ih =>
    cases i with
    | zero =>
      simp only [stamp,List.getElem?_cons_zero,Option.some.injEq] at there
      exact ⟨first,rfl,by rw [← there]⟩
    | succ i => exact ih (by simpa [stamp] using there)

/-- The converse: every block is there with the work it gets. -/
theorem getElem?_stamp {blocks : List Block} {i : Nat} {plain : Block} (there : blocks[i]? = some plain) (work : UInt64) :
    ∃ sum, (stamp work blocks)[i]? = some { plain with cumulativeWork := sum } := by
  induction blocks generalizing work i with
  | nil => simp at there
  | cons first rest ih =>
    cases i with
    | zero =>
      obtain rfl := Option.some.inj there
      exact ⟨_,rfl⟩
    | succ i => exact ih there _

theorem mem_stamp {work : UInt64} {blocks : List Block} {block : Block} (member : block ∈ stamp work blocks) :
    ∃ plain ∈ blocks, block = { plain with cumulativeWork := block.cumulativeWork } := by
  obtain ⟨i,there⟩ := List.mem_iff_getElem?.mp member
  obtain ⟨plain,inside,same⟩ := stamp_getElem? there
  exact ⟨plain,List.mem_of_getElem? inside,same⟩

theorem latest_addBlock (chain : Blockchain) (block : Block) :
    (chain.addBlock block).latest = { block with cumulativeWork := block.blockWork + chain.latest.cumulativeWork } := by
  simp [latest,addBlock]

theorem blocks_foldl_addBlock (chain : Blockchain) (blocks : List Block) :
    (blocks.foldl addBlock chain).blocks = chain.blocks ++ stamp chain.latest.cumulativeWork blocks := by
  induction blocks generalizing chain with
  | nil => simp [stamp]
  | cons block rest ih =>
    rw [List.foldl_cons,ih,latest_addBlock]
    simp [addBlock,stamp]

/-- The work of the tip after appending blocks. -/
theorem work_foldl_addBlock (chain : Blockchain) (blocks : List Block) :
    (blocks.foldl addBlock chain).latest.cumulativeWork =
      blocks.foldl (fun work block => work + block.blockWork) chain.latest.cumulativeWork := by
  induction blocks generalizing chain with
  | nil => rfl
  | cons block rest ih =>
    rw [List.foldl_cons,ih,latest_addBlock,List.foldl_cons,add_comm]

theorem size_pos (chain : Blockchain) : 0 < chain.size := List.length_pos_iff.mpr chain.nonempty

theorem blocks_getElem?_latest (chain : Blockchain) : chain.blocks[chain.size - 1]? = some chain.latest := by
  rw [latest,List.getLast_eq_getElem,size]
  exact List.getElem?_eq_getElem _

theorem size_cut {chain : Blockchain} {height : Nat} (inside : height < chain.size) :
    (chain.cut height).size = height + 1 :=
  List.length_take_of_le inside

theorem latest_cut {chain : Blockchain} {height : Nat} {block : Block} (there : chain.blocks[height]? = some block) :
    (chain.cut height).latest = block := by
  have inside := (List.getElem?_eq_some_iff.mp there).1
  have last : (chain.cut height).blocks[height]? = some block := by
    simp [cut,there]
  have := blocks_getElem?_latest (chain.cut height)
  rw [size_cut inside,Nat.add_sub_cancel,last] at this
  exact (Option.some.inj this).symm

/-! ### Reorganizing -/

/-- Up to the cut a reorganized chain has the old blocks. -/
theorem reorganized_below {chain : Blockchain} {height i : Nat} (inside : height < chain.size) (below : i ≤ height)
    (blocks : List Block) : (blocks.foldl addBlock (chain.cut height)).blocks[i]? = chain.blocks[i]? := by
  have size : (chain.cut height).blocks.length = height + 1 := size_cut inside
  rw [blocks_foldl_addBlock,List.getElem?_append_left (by omega),cut,List.getElem?_take_of_lt (by omega)]

/-- Above the cut it has the new ones. -/
theorem reorganized_above {chain : Blockchain} {height : Nat} (inside : height < chain.size) (blocks : List Block)
    (i : Nat) :
    (blocks.foldl addBlock (chain.cut height)).blocks[height + 1 + i]? =
      (stamp (chain.cut height).latest.cumulativeWork blocks)[i]? := by
  have size : (chain.cut height).blocks.length = height + 1 := size_cut inside
  rw [blocks_foldl_addBlock,List.getElem?_append_right (by omega),size,Nat.add_sub_cancel_left]

/-- Each new block is above the cut, with its work. -/
theorem reorganized_of_branch {chain : Blockchain} {height j : Nat} {blocks : List Block} {plain : Block}
    (inside : height < chain.size) (own : blocks[j]? = some plain) :
    ∃ work, (blocks.foldl addBlock (chain.cut height)).blocks[height + 1 + j]? =
      some { plain with cumulativeWork := work } := by
  obtain ⟨work,stamped⟩ := getElem?_stamp own (chain.cut height).latest.cumulativeWork
  exact ⟨work,by rw [reorganized_above inside,stamped]⟩

/-- Every block above the cut is one of the new ones with its work. -/
theorem branch_of_reorganized {chain : Blockchain} {height i : Nat} {blocks : List Block} {block : Block}
    (inside : height < chain.size) (above : height < i)
    (there : (blocks.foldl addBlock (chain.cut height)).blocks[i]? = some block) :
    ∃ j plain, i = height + 1 + j ∧ blocks[j]? = some plain ∧
      block = { plain with cumulativeWork := block.cumulativeWork } := by
  obtain ⟨j,rfl⟩ := Nat.exists_eq_add_of_le above
  obtain ⟨plain,own,same⟩ := stamp_getElem? ((reorganized_above inside blocks j).symm.trans there)
  exact ⟨j,plain,rfl,own,same⟩

theorem blockAt_eq_ok {chain : Blockchain} {height : Nat} {block : Block} :
    chain.blockAt height = .ok block ↔ chain.blocks[height]? = some block := by
  unfold blockAt
  cases chain.blocks[height]? <;> simp

/-- The chain has every block below its size. -/
theorem blockAt_below {chain : Blockchain} {height : Nat} (below : height < chain.size) :
    ∃ block, chain.blockAt height = .ok block :=
  ⟨_,blockAt_eq_ok.mpr (List.getElem?_eq_getElem below)⟩

/-! ### Links -/

/-- Every block names the one before it as its parent, the first one the given
    hash. -/
def Linked : HashBytes → List Block → Prop
  | _, [] => True
  | parent, block :: rest => block.prevHash = parent ∧ Linked block.hash rest

/-- The hash of the last of some blocks on top of a given one. -/
def topHash : HashBytes → List Block → HashBytes
  | parent, [] => parent
  | _, block :: rest => topHash block.hash rest

@[simp] theorem topHash_append (parent : HashBytes) (left right : List Block) :
    topHash parent (left ++ right) = topHash (topHash parent left) right := by
  induction left generalizing parent with
  | nil => rfl
  | cons block rest ih => exact ih block.hash

theorem linked_append {parent : HashBytes} {left right : List Block} :
    Linked parent (left ++ right) ↔ Linked parent left ∧ Linked (topHash parent left) right := by
  induction left generalizing parent with
  | nil => simp [Linked,topHash]
  | cons block rest ih => simp [Linked,topHash,ih,and_assoc]

theorem Linked.first {parent : HashBytes} {blocks : List Block} {block : Block} (linked : Linked parent blocks)
    (there : blocks[0]? = some block) : block.prevHash = parent := by
  cases blocks with
  | nil => cases there
  | cons first rest =>
    obtain rfl := Option.some.inj there
    exact linked.1

theorem Linked.next {parent : HashBytes} {blocks : List Block} {i : Nat} {earlier block : Block}
    (linked : Linked parent blocks) (before : blocks[i]? = some earlier) (there : blocks[i + 1]? = some block) :
    block.prevHash = earlier.hash := by
  induction blocks generalizing parent i with
  | nil => cases before
  | cons first rest ih =>
    cases i with
    | zero =>
      obtain rfl := Option.some.inj before
      exact linked.2.first there
    | succ i => exact ih linked.2 before there

theorem Linked.take {parent : HashBytes} {blocks : List Block} (linked : Linked parent blocks) (len : Nat) :
    Linked parent (blocks.take len) := by
  rw [← List.take_append_drop len blocks,linked_append] at linked
  exact linked.1

theorem Linked.parent {parent : HashBytes} {blocks : List Block} {block : Block} (linked : Linked parent blocks)
    (member : block ∈ blocks) : block.prevHash = parent ∨ ∃ earlier ∈ blocks, block.prevHash = earlier.hash := by
  induction blocks generalizing parent with
  | nil => cases member
  | cons first rest ih =>
    rcases List.mem_cons.mp member with rfl | later
    · exact .inl linked.1
    · rcases ih linked.2 later with first' | ⟨earlier,inside,same⟩
      · exact .inr ⟨first,List.mem_cons_self,first'⟩
      · exact .inr ⟨earlier,List.mem_cons_of_mem _ inside,same⟩

theorem linked_stamp {parent : HashBytes} {work : UInt64} {blocks : List Block} :
    Linked parent (stamp work blocks) ↔ Linked parent blocks := by
  induction blocks generalizing parent work with
  | nil => rfl
  | cons block rest ih => exact and_congr_right fun _ => ih

theorem Linked.isChain {parent : HashBytes} {blocks : List Block} (linked : Linked parent blocks) :
    List.IsChain (fun parent block => block.prevHash = parent.hash) blocks := by
  induction blocks generalizing parent with
  | nil => exact .nil
  | cons block rest ih =>
    cases rest with
    | nil => exact .singleton block
    | cons next rest => exact .cons_cons linked.2.1 (ih linked.2)

theorem linked_of_isChain {block : Block} {rest : List Block}
    (chained : List.IsChain (fun parent block => block.prevHash = parent.hash) (block :: rest)) :
    Linked block.prevHash (block :: rest) := by
  refine ⟨rfl,?_⟩
  induction rest generalizing block with
  | nil => trivial
  | cons next rest ih =>
    rw [List.isChain_cons_cons] at chained
    exact ⟨chained.1,ih chained.2⟩

/-! ### The index -/

/-- Where the index points there is a block with the hash. -/
def Sound (chain : Blockchain) : Prop :=
  ∀ hash height, chain.findHeight hash = some height → ∃ block, chain.blocks[height]? = some block ∧ block.hash = hash

theorem Sound.below {chain : Blockchain} (sound : chain.Sound) {hash : HashBytes} {height : Nat}
    (found : chain.findHeight hash = some height) : height < chain.size := by
  obtain ⟨block,there,-⟩ := sound hash height found
  exact (List.getElem?_eq_some_iff.mp there).1

theorem Sound.find {chain : Blockchain} (sound : chain.Sound) {hash : HashBytes} {block : Block}
    (found : chain.find hash = some block) :
    block.hash = hash ∧ ∃ height, chain.findHeight hash = some height ∧ chain.blocks[height]? = some block := by
  obtain ⟨height,at_height,there⟩ := Option.bind_eq_some_iff.mp found
  obtain ⟨other,there',same⟩ := sound hash height at_height
  rw [there] at there'
  obtain rfl := Option.some.inj there'
  exact ⟨same,height,at_height,there⟩

theorem sound_new (P : Primitives) : (new P).Sound := by
  intro hash height found
  by_cases same : hash = (Block.genesis P).hash
  · subst same
    simp only [findHeight,new,Finmap.lookup_singleton_eq,Option.some.injEq] at found
    subst found
    exact ⟨_,rfl,rfl⟩
  · have known := Finmap.mem_of_lookup_eq_some found
    exact absurd (by simpa [new] using known) same

theorem Sound.addBlock {chain : Blockchain} (sound : chain.Sound) (block : Block) : (chain.addBlock block).Sound := by
  intro hash height found
  unfold findHeight Blockchain.addBlock at found
  by_cases same : hash = block.hash
  · subst same
    rw [Finmap.lookup_insert] at found
    obtain rfl := Option.some.inj found
    exact ⟨_,List.getElem?_concat_length,rfl⟩
  · rw [Finmap.lookup_insert_of_ne _ same] at found
    obtain ⟨old,there,hash_eq⟩ := sound hash height found
    have inside := (List.getElem?_eq_some_iff.mp there).1
    exact ⟨old,by rw [Blockchain.addBlock,List.getElem?_append_left inside,there],hash_eq⟩

theorem Sound.foldl_addBlock {chain : Blockchain} (sound : chain.Sound) (blocks : List Block) :
    (blocks.foldl Blockchain.addBlock chain).Sound := by
  induction blocks generalizing chain with
  | nil => exact sound
  | cons block rest ih => exact ih (sound.addBlock block)

theorem lookup_foldl_erase (blocks : List Block) (index : Finmap fun _ : HashBytes => Nat) (hash : HashBytes) :
    (blocks.foldl (fun index block => index.erase block.hash) index).lookup hash =
      if ∃ block ∈ blocks, block.hash = hash then none else index.lookup hash := by
  induction blocks generalizing index with
  | nil => simp
  | cons block rest ih =>
    rw [List.foldl_cons,ih]
    by_cases later : ∃ b ∈ rest, b.hash = hash
    · simp [later]
    · by_cases same : hash = block.hash
      · subst same
        simp
      · simp [later,Ne.symm same,Finmap.lookup_erase_ne same]

/-- The cut forgets the hashes of the blocks above it, so whatever it still
    finds is below. -/
theorem Sound.cut {chain : Blockchain} (sound : chain.Sound) (height : Nat) : (chain.cut height).Sound := by
  intro hash i found
  unfold findHeight Blockchain.cut at found
  rw [lookup_foldl_erase] at found
  split at found
  · cases found
  · rename_i absent
    obtain ⟨block,there,same⟩ := sound hash i found
    refine ⟨block,?_,same⟩
    by_contra gone
    apply absent
    refine ⟨block,List.mem_iff_getElem?.mpr ⟨i - (height + 1),?_⟩,same⟩
    rw [Blockchain.cut,List.getElem?_take] at gone
    have above : ¬ i < height + 1 := fun below => gone (by rw [if_pos below,there])
    rw [List.getElem?_drop,← there]
    congr 1
    omega

/-- The index finds exactly the blocks of the chain, each at its own height. -/
def Indexed (chain : Blockchain) : Prop :=
  ∀ hash height, chain.findHeight hash = some height ↔ chain.blocks[height]?.map Block.hash = some hash

theorem Indexed.sound {chain : Blockchain} (indexed : chain.Indexed) : chain.Sound :=
  fun hash height found => Option.map_eq_some_iff.mp ((indexed hash height).mp found)

theorem Indexed.unique {chain : Blockchain} (indexed : chain.Indexed) {i j : Nat} {a b : Block}
    (ati : chain.blocks[i]? = some a) (atj : chain.blocks[j]? = some b) (same : a.hash = b.hash) : i = j := by
  have first := (indexed a.hash i).mpr (by rw [ati]; rfl)
  have second := (indexed a.hash j).mpr (by rw [atj,same]; rfl)
  rw [first] at second
  exact Option.some.inj second

theorem Indexed.hasBlock_iff {chain : Blockchain} (indexed : chain.Indexed) (hash : HashBytes) :
    chain.hasBlock hash = true ↔ ∃ block ∈ chain.blocks, block.hash = hash := by
  constructor
  · intro has
    obtain ⟨height,found⟩ := Option.isSome_iff_exists.mp has
    obtain ⟨block,there,same⟩ := Option.map_eq_some_iff.mp ((indexed hash height).mp found)
    exact ⟨block,List.mem_of_getElem? there,same⟩
  · rintro ⟨block,member,rfl⟩
    obtain ⟨height,there⟩ := List.mem_iff_getElem?.mp member
    exact Option.isSome_iff_exists.mpr ⟨height,(indexed _ height).mpr (by rw [there]; rfl)⟩

theorem Indexed.find_eq {chain : Blockchain} (indexed : chain.Indexed) {hash : HashBytes} {block : Block} :
    chain.find hash = some block ↔ block ∈ chain.blocks ∧ block.hash = hash := by
  unfold find
  constructor
  · intro found
    obtain ⟨height,at_height,there⟩ := Option.bind_eq_some_iff.mp found
    have same := (indexed hash height).mp at_height
    rw [there] at same
    exact ⟨List.mem_of_getElem? there,Option.some.inj same⟩
  · rintro ⟨member,rfl⟩
    obtain ⟨height,there⟩ := List.mem_iff_getElem?.mp member
    exact Option.bind_eq_some_iff.mpr ⟨height,(indexed _ height).mpr (by rw [there]; rfl),there⟩

/-- Chains that find exactly their blocks differ in the blocks, if at all. -/
theorem Indexed.ext {chain other : Blockchain} (indexed : chain.Indexed) (indexed' : other.Indexed)
    (same : chain.blocks = other.blocks) : chain = other := by
  have index : chain.heightByHash = other.heightByHash := by
    refine Finmap.ext_lookup fun hash => Option.ext fun height => ?_
    have this := indexed hash height
    rw [same] at this
    exact this.trans (indexed' hash height).symm
  cases chain
  cases other
  cases same
  cases index
  rfl

theorem indexed_new (P : Primitives) : (new P).Indexed := by
  intro hash height
  by_cases same : hash = (Block.genesis P).hash
  · subst same
    cases height <;> simp [findHeight,new]
  · have absent : (Finmap.singleton (β := fun _ => Nat) (Block.genesis P).hash 0).lookup hash = none := by
      rw [Finmap.lookup_eq_none,Finmap.mem_singleton]
      exact same
    cases height <;> simp [findHeight,new,absent,Ne.symm same]

theorem Indexed.addBlock {chain : Blockchain} (indexed : chain.Indexed) {block : Block}
    (new : ∀ old ∈ chain.blocks, old.hash ≠ block.hash) : (chain.addBlock block).Indexed := by
  intro hash height
  unfold findHeight Blockchain.addBlock
  by_cases same : hash = block.hash
  · subst same
    simp only [Finmap.lookup_insert,Option.some.injEq]
    constructor
    · rintro rfl
      simp
    · intro there
      by_contra other
      have inside : height < chain.blocks.length := by
        obtain ⟨b,at_height,-⟩ := Option.map_eq_some_iff.mp there
        have := (List.getElem?_eq_some_iff.mp at_height).1
        simp at this
        omega
      rw [List.getElem?_append_left inside] at there
      obtain ⟨b,at_height,bad⟩ := Option.map_eq_some_iff.mp there
      exact new b (List.mem_of_getElem? at_height) bad
  · rw [Finmap.lookup_insert_of_ne _ same]
    have old := indexed hash height
    unfold findHeight at old
    rw [old]
    rcases Nat.lt_trichotomy height chain.blocks.length with inside | rfl | outside
    · rw [List.getElem?_append_left inside]
    · simp [Ne.symm same]
    · rw [List.getElem?_eq_none (by omega),List.getElem?_eq_none (by simp; omega)]

theorem Indexed.foldl_addBlock {chain : Blockchain} (indexed : chain.Indexed) {blocks : List Block}
    (new : ((chain.blocks ++ blocks).map Block.hash).Nodup) : (blocks.foldl Blockchain.addBlock chain).Indexed := by
  induction blocks generalizing chain with
  | nil => exact indexed
  | cons block rest ih =>
    refine ih (indexed.addBlock fun old member same => ?_) ?_
    · rw [List.map_append,List.nodup_append'] at new
      exact new.2.2 (List.mem_map.mpr ⟨old,member,same⟩) (by simp)
    · simpa [Blockchain.addBlock] using new

theorem Indexed.cut {chain : Blockchain} (indexed : chain.Indexed) (height : Nat) : (chain.cut height).Indexed := by
  intro hash i
  unfold findHeight Blockchain.cut
  rw [lookup_foldl_erase]
  have old := indexed hash i
  unfold findHeight at old
  split
  · -- The hash is above the cut, so by the old index it is nowhere below it.
    rename_i above
    obtain ⟨block,member,rfl⟩ := above
    obtain ⟨j,there⟩ := List.mem_iff_getElem?.mp member
    rw [List.getElem?_drop] at there
    simp only [reduceCtorEq,false_iff]
    intro below
    obtain ⟨b,at_i,same⟩ := Option.map_eq_some_iff.mp below
    rw [List.getElem?_take] at at_i
    split at at_i
    · have := indexed.unique at_i there same
      omega
    · cases at_i
  · rename_i absent
    rw [old]
    rw [List.getElem?_take]
    split
    · rfl
    · rename_i outside
      simp only [Option.map_none,reduceCtorEq,iff_false]
      intro there
      obtain ⟨b,at_i,same⟩ := Option.map_eq_some_iff.mp there
      apply absent
      refine ⟨b,List.mem_iff_getElem?.mpr ⟨i - (height + 1),?_⟩,same⟩
      rw [List.getElem?_drop,← at_i]
      congr 1
      omega

end Blockchain
end ForgeChain
