import ForgeChain.BlockTree
import ForgeChain.Runs
import ForgeChain.Samples

/-!
What a chain keeps of its blocks besides the blocks: the index from hashes to
heights and the cumulative work. Whatever is appended and however often the
chain is reorganized, both are functions of the blocks
(`representation_kept`), as long as no block comes in twice.
-/
namespace ForgeChain.Representation
open Runs Blockchain BlockTree Samples

/-- A call that changes a chain. -/
inductive ChainCall where
  | addBlock (block : Block)
  | reorganizeTo (fork : ForkChain)

def after (chain : Blockchain) : ChainCall → Blockchain
  | .addBlock block => chain.addBlock block
  | .reorganizeTo fork => (chain.reorganizeTo fork).2

/-- The hash of each block is new when the block is appended. -/
def NewOn : Blockchain → List Block → Prop
  | _, [] => True
  | chain, block :: rest => (∀ old ∈ chain.blocks, old.hash ≠ block.hash) ∧ NewOn (chain.addBlock block) rest

instance NewOn.decidable : ∀ chain blocks, Decidable (NewOn chain blocks)
  | _, [] => isTrue trivial
  | chain, block :: rest => @instDecidableAnd _ _ _ (NewOn.decidable (chain.addBlock block) rest)

/-- A call appends only blocks whose hashes are new. -/
def Fresh (chain : Blockchain) : ChainCall → Prop
  | .addBlock block => NewOn chain [block]
  | .reorganizeTo fork =>
    match chain.findHeight fork.commonAncestor.hash with
    | none => True
    | some height => NewOn (chain.cut height) fork.blocks

instance Fresh.decidable : ∀ chain call, Decidable (Fresh chain call)
  | chain, .addBlock block => inferInstanceAs (Decidable (NewOn chain [block]))
  | chain, .reorganizeTo fork =>
    match found : chain.findHeight fork.commonAncestor.hash with
    | none => isTrue (by rw [Fresh,found]; trivial)
    | some height => decidable_of_iff (NewOn (chain.cut height) fork.blocks) (by rw [Fresh,found])

section
variable {P : Primitives} {chain : Blockchain} {path blocks : List Block} {height : Nat}

/-! ### Every call -/

/-- The blocks are those of a path with their work, and the index finds them. -/
structure Represents (P : Primitives) (chain : Blockchain) (path : List Block) : Prop where
  follows : Follows P chain path
  indexed : chain.Indexed

theorem indexed_append (indexed : chain.Indexed) (new : NewOn chain blocks) :
    (blocks.foldl addBlock chain).Indexed := by
  induction blocks generalizing chain with
  | nil => exact indexed
  | cons block rest ih => exact ih (indexed.addBlock new.1) new.2

theorem Represents.after (represents : Represents P chain path) {call : ChainCall} (fresh : Fresh chain call) :
    ∃ path', Represents P (Representation.after chain call) path' := by
  cases call with
  | addBlock block =>
    exact ⟨path ++ [block],represents.follows.addBlock block,indexed_append represents.indexed fresh⟩
  | reorganizeTo fork =>
    rcases found : chain.findHeight fork.commonAncestor.hash with _ | height
    · refine ⟨path,?_⟩
      rw [Representation.after,reorganizeTo,found]
      exact represents
    · have inside := represents.indexed.sound.below found
      rw [represents.follows.size_eq] at inside
      refine ⟨path.take height ++ fork.blocks,?_⟩
      rw [Representation.after,reorganizeTo,found]
      rw [Fresh,found] at fresh
      exact ⟨represents.follows.reorganized (by omega) fork.blocks,
        indexed_append (represents.indexed.cut height) fresh⟩

theorem represents_run {calls : List ChainCall} (fresh : Along Representation.after Fresh (.new P) calls) :
    ∃ path, Represents P (run Representation.after (.new P) calls) path :=
  fresh.keeps (motive := fun chain => ∃ path, Represents P chain path)
    (fun _ _ represented meets => represented.elim fun _ represents => represents.after meets)
    ⟨[],follows_new P,indexed_new P⟩

/-! ### Work -/

/-- Above genesis a chain has the blocks of its path, but for their work. -/
theorem pathWork_drop (follows : Follows P chain path) (height : Nat) :
    pathWork ((chain.blocks.drop 1).take height) = pathWork (path.take height) := by
  rw [follows,List.drop_one,List.tail_cons,take_stamp,pathWork,stamp_map fun _ _ => rfl,pathWork]

theorem work_at (represents : Represents P chain path) {block : Block} (there : chain.blocks[height]? = some block) :
    block.cumulativeWork.toNat = pathWork ((chain.blocks.drop 1).take height) % 2 ^ 64 := by
  rw [(represents.follows.getElem? there).2,foldl_work_mod,pathWork_drop represents.follows]
  simp

theorem pathWork_eq_sum (low : ∀ block ∈ blocks, block.difficulty.toNat < 64) :
    pathWork blocks = (blocks.map fun block => 2 ^ block.difficulty.toNat).sum := by
  rw [pathWork,List.map_congr_left fun block member => Block.blockWork_toNat (low block member)]

/-- More blocks are more work. -/
theorem pathWork_lt {i j : Nat} (less : i < j) (inside : j ≤ blocks.length) :
    pathWork (blocks.take i) < pathWork (blocks.take j) := by
  obtain ⟨more,rfl⟩ := Nat.exists_eq_add_of_lt less
  have next : blocks.take (i + more + 1) = blocks.take i ++ (blocks.drop i).take (more + 1) := by
    rw [Nat.add_assoc,List.take_add]
  have here : (blocks.drop i).take (more + 1) ≠ [] := by
    refine List.length_pos_iff.mp ?_
    rw [List.length_take,List.length_drop]
    omega
  obtain ⟨block,rest,split⟩ := List.exists_cons_of_ne_nil here
  have positive := block.blockWork_pos
  rw [next,pathWork_append,split]
  simp only [pathWork,List.map_cons,List.sum_cons]
  omega

/-- While it fits into 64 bits, the work grows with the height. -/
theorem work_lt (represents : Represents P chain path) {block earlier : Block} {i : Nat}
    (there : chain.blocks[height]? = some block) (light : pathWork ((chain.blocks.drop 1).take height) < 2 ^ 64)
    (below : i < height) (at_i : chain.blocks[i]? = some earlier) : earlier.cumulativeWork < block.cumulativeWork := by
  have inside : height < chain.blocks.length := (List.getElem?_eq_some_iff.mp there).1
  have less : pathWork ((chain.blocks.drop 1).take i) < pathWork ((chain.blocks.drop 1).take height) :=
    pathWork_lt below (by rw [List.length_drop]; omega)
  rw [UInt64.lt_iff_toNat_lt,work_at represents there,work_at represents at_i,Nat.mod_eq_of_lt light,
    Nat.mod_eq_of_lt (less.trans light)]
  exact less

end

end ForgeChain.Representation
