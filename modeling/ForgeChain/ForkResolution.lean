import ForgeChain.Blockchain
import ForgeChain.OrphanPool

/-!
How a branch is traced back to the chain (`src/core/ForkResolution.cpp`) and
how two nodes find a block they share (`src/core/BlockLocator.cpp`).
-/
namespace ForgeChain

def kMaxForkDepth : Nat := 100

/-- The loop of `build_fork_chain` with `left` rounds to go: `branch` is what
    was found so far, oldest block first. -/
def traceFork (chain : Blockchain) (pool : OrphanPool) : Nat → List Block → HashBytes → Option ForkChain
  | 0, _, _ => none
  | left+1, branch, currentHash =>
    match chain.find currentHash with
    | some ancestor => some ⟨branch,ancestor⟩
    | none =>
      match pool.findOrphan currentHash with
      | none => none
      | some block => traceFork chain pool left (block :: branch) block.prevHash

def buildForkChain (chain : Blockchain) (pool : OrphanPool) (tip : Block) : Option ForkChain :=
  traceFork chain pool kMaxForkDepth [tip] tip.prevHash

def forkWork (fork : ForkChain) : UInt64 :=
  fork.blocks.foldl (fun work block => work + block.blockWork) fork.commonAncestor.cumulativeWork

def isForkHeavier (chain : Blockchain) (fork : ForkChain) : Bool := forkWork fork > chain.latest.cumulativeWork

/-- The loop of `build_locator` from a height down, with `count` hashes taken;
    the height falls in every round, so `fuel` above it is never used up. -/
def locatorHeights : Nat → Nat → Nat → Nat → List Nat
  | 0, _, _, _ => []
  | fuel+1, count, step, height =>
    if height = 0 then []
    else
      let step := if count + 1 ≥ 10 then step * 2 else step
      height :: if step > height then [] else locatorHeights fuel (count + 1) step (height - step)

def buildLocator (chain : Blockchain) : Except Exn (List HashBytes) :=
  (locatorHeights chain.size 0 1 (chain.size - 1) ++ [0]).mapM fun height => (chain.blockAt height).map Block.hash

def findLocatorMatch (chain : Blockchain) (locator : List HashBytes) : Option Nat :=
  locator.findSome? chain.findHeight

/-! ### What tracing a branch finds -/

section
variable {chain : Blockchain} {pool : OrphanPool} {left : Nat} {branch : List Block} {hash : HashBytes}

/-- The blocks that a trace adds come from the pool, are not in the chain and
    link the common ancestor to the hash the trace started at. -/
theorem traceFork_spec {fork : ForkChain} (sound : chain.Sound) (keyed : pool.Keyed)
    (run : traceFork chain pool left branch hash = some fork) :
    ∃ path, fork.blocks = path ++ branch ∧ path.length < left ∧
      (∀ block ∈ path, pool.findOrphan block.hash = some block ∧ chain.find block.hash = none) ∧
      chain.find fork.commonAncestor.hash = some fork.commonAncestor ∧
      Blockchain.Linked fork.commonAncestor.hash path ∧ Blockchain.topHash fork.commonAncestor.hash path = hash := by
  induction left generalizing branch hash with
  | zero => cases run
  | succ left ih =>
    rw [traceFork] at run
    cases found : chain.find hash with
    | some ancestor =>
      rw [found] at run
      obtain rfl := Option.some.inj run
      have same := (sound.find found).1
      exact ⟨[],rfl,Nat.succ_pos left,by simp,by simpa [same] using found,trivial,same⟩
    | none =>
      cases orphan : pool.findOrphan hash with
      | none => simp [found,orphan] at run
      | some block =>
        simp only [found,orphan] at run
        have own := keyed hash block orphan
        obtain ⟨path,blocks,short,inside,ancestor,linked,top⟩ := ih run
        refine ⟨path ++ [block],by simpa using blocks,by simpa using short,?_,ancestor,?_,?_⟩
        · intro other member
          rcases List.mem_append.mp member with earlier | last
          · exact inside other earlier
          · obtain rfl := List.mem_singleton.mp last
            rw [own]
            exact ⟨orphan,found⟩
        · exact Blockchain.linked_append.mpr ⟨linked,top.symm,trivial⟩
        · simpa [Blockchain.topHash] using own

/-- A path from the chain through the pool is traced back if it is short enough. -/
theorem traceFork_of_path {ancestor : Block} (path : List Block) (found : chain.find ancestor.hash = some ancestor)
    (inside : ∀ block ∈ path, pool.findOrphan block.hash = some block ∧ chain.find block.hash = none)
    (linked : Blockchain.Linked ancestor.hash path) (short : path.length < left) :
    traceFork chain pool left branch (Blockchain.topHash ancestor.hash path) = some ⟨path ++ branch,ancestor⟩ := by
  induction path using List.reverseRecOn generalizing left branch with
  | nil =>
    cases left with
    | zero => simp at short
    | succ left => simp [traceFork,Blockchain.topHash,found]
  | append_singleton path block ih =>
    cases left with
    | zero => simp at short
    | succ left =>
      obtain ⟨orphan,absent⟩ := inside block (by simp)
      obtain ⟨earlier,parent,-⟩ := Blockchain.linked_append.mp linked
      have last : Blockchain.topHash ancestor.hash (path ++ [block]) = block.hash := by simp [Blockchain.topHash]
      rw [last,traceFork]
      simp only [absent,orphan]
      have rest : path.length < left := by simpa using short
      rw [parent,ih (fun other member => inside other (by simp [member])) earlier rest]
      simp

/-- Two traces from the same hash go the same way. -/
theorem traceFork_same {left' : Nat} {branch' : List Block} {fork fork' : ForkChain}
    (run : traceFork chain pool left branch hash = some fork)
    (run' : traceFork chain pool left' branch' hash = some fork') :
    fork.commonAncestor = fork'.commonAncestor ∧
      ∃ path, fork.blocks = path ++ branch ∧ fork'.blocks = path ++ branch' := by
  induction left generalizing left' branch branch' hash with
  | zero => cases run
  | succ left ih =>
    cases left' with
    | zero => cases run'
    | succ left' =>
      rw [traceFork] at run run'
      cases found : chain.find hash with
      | some ancestor =>
        simp only [found,Option.some.injEq] at run run'
        subst run run'
        exact ⟨rfl,[],rfl,rfl⟩
      | none =>
        cases orphan : pool.findOrphan hash with
        | none => simp [found,orphan] at run
        | some block =>
          simp only [found,orphan] at run run'
          obtain ⟨ancestor,path,blocks,blocks'⟩ := ih run run'
          exact ⟨ancestor,path ++ [block],by simpa using blocks,by simpa using blocks'⟩

end

end ForgeChain
