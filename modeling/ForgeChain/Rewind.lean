import ForgeChain.Calls
import ForgeChain.Samples
import Mathlib.Order.Bounds.Basic

/-!
The validation of a branch without leaving the chain. It reads the chain below
the common ancestor and the branch above it, and that is what the checks for a
block on the tip read once the chain is cut back to the ancestor and has the
earlier blocks of the branch on top (`validPrefixLength_rewinds`).
-/
namespace ForgeChain.Rewind
open Blockchain Samples

/-- The number of blocks that pass the checks for a block on the tip, each on the
    chain with the ones before it. -/
def passes (P : Primitives) (m : ChainManager) (now : UInt64) : List Block → Except Exn Nat
  | [] => .ok 0
  | block :: rest => do
    if ← m.checkTip P now block then
      let later ← passes P { m with blockchain := m.blockchain.addBlock block } now rest
      .ok (later + 1)
    else .ok 0

/-- The numbers of leading blocks that meet the contextual rules, each on a chain
    with the ones before it. -/
def Fitting (P : Primitives) (params : ConsensusParams) (now : UInt64) (chain : Blockchain) (blocks : List Block) :
    Set Nat :=
  { len | len ≤ blocks.length ∧ ∀ i block, i < len → blocks[i]? = some block →
    Fits P params ((blocks.take i).foldl addBlock chain).blockAt now (chain.size + i) block }

section
variable {P : Primitives} {params : ConsensusParams} {m : ChainManager} {now : UInt64} {chain : Blockchain}
  {block : Block} {blocks : List Block} {len height : Nat}

/-! ### One after another -/

theorem zero_mem_fitting : 0 ∈ Fitting P params now chain blocks :=
  ⟨Nat.zero_le _,fun _ _ less => absurd less (Nat.not_lt_zero _)⟩

/-- A block more is one that fits on the chain, and the others on top of it. -/
theorem succ_mem_fitting : len + 1 ∈ Fitting P params now chain (block :: blocks) ↔
    Fits P params chain.blockAt now chain.size block ∧ len ∈ Fitting P params now (chain.addBlock block) blocks := by
  have size : (chain.addBlock block).size = chain.size + 1 := by simp [Blockchain.size,addBlock]
  constructor
  · rintro ⟨inside,fits⟩
    refine ⟨fits 0 block (Nat.succ_pos _) rfl,Nat.le_of_succ_le_succ inside,fun i other less there => ?_⟩
    rw [size,Nat.add_right_comm]
    exact fits (i + 1) other (Nat.succ_lt_succ less) there
  · rintro ⟨first,inside,fits⟩
    refine ⟨Nat.succ_le_succ inside,fun i other less there => ?_⟩
    cases i with
    | zero =>
      obtain rfl := Option.some.inj there
      exact first
    | succ i =>
      have := fits i other (Nat.lt_of_succ_lt_succ less) there
      rwa [size,Nat.add_right_comm] at this

/-- The checks for a block on the tip count the leading blocks that fit. -/
theorem passes_greatest (P : Primitives) (m : ChainManager) (now : UInt64) (blocks : List Block) :
    ∃ len, passes P m now blocks = .ok len ∧ IsGreatest (Fitting P m.params now m.blockchain blocks) len := by
  induction blocks generalizing m with
  | nil => exact ⟨0,rfl,zero_mem_fitting,fun len member => member.1⟩
  | cons block rest ih =>
    obtain ⟨fits,checked,fits_iff⟩ := checkTip_eq P m now block
    cases fits with
    | false =>
      refine ⟨0,by rw [passes,checked]; rfl,zero_mem_fitting,fun len member => ?_⟩
      cases len with
      | zero => exact Nat.zero_le _
      | succ len => exact absurd (fits_iff.mpr (succ_mem_fitting.mp member).1) Bool.false_ne_true
    | true =>
      obtain ⟨later,counted,member,greatest⟩ := ih { m with blockchain := m.blockchain.addBlock block }
      refine ⟨later + 1,by rw [passes,checked]; simp [bind,Except.bind,counted],?_,fun len more => ?_⟩
      · exact succ_mem_fitting.mpr ⟨fits_iff.mp rfl,member⟩
      · cases len with
        | zero => exact Nat.zero_le _
        | succ len => exact Nat.succ_le_succ (greatest (succ_mem_fitting.mp more).2)

/-! ### Beside the chain -/

/-- The blocks that a branch is validated over are those of the chain that is cut
    back and has the earlier blocks of the branch on top. -/
theorem sameBelow_rewound (inside : height < chain.size) (blocks : List Block) (i : Nat) :
    SameBelow (height + 1 + i) (ChainManager.forkBlockAt chain (height + 1) blocks)
      ((blocks.take i).foldl addBlock (chain.cut height)).blockAt :=
  fun j below => (forkBlockAt_take le_rfl j below).trans
    (sameBelow_reorganized inside (blocks.take i) (height + 1 + i) j below)

theorem fits_rewound (inside : height < chain.size) {i : Nat} :
    Fits P params (ChainManager.forkBlockAt chain (height + 1) blocks) now (height + 1 + i) block ↔
      Fits P params ((blocks.take i).foldl addBlock (chain.cut height)).blockAt now (height + 1 + i) block :=
  ⟨Fits.congr (sameBelow_rewound inside blocks i),Fits.congr (sameBelow_rewound inside blocks i).symm⟩

theorem validPrefixLength_greatest (P : Primitives) (now : UInt64) {fork : ForkChain}
    (found : m.blockchain.findHeight fork.commonAncestor.hash = some height)
    (inside : height < m.blockchain.size) :
    ∃ len, m.validPrefixLength P fork now = .ok len ∧
      IsGreatest (Fitting P m.params now (m.blockchain.cut height) fork.blocks) len := by
  have there : ∀ j < height + 1 + 0 + fork.blocks.length, ∃ block,
      ChainManager.forkBlockAt m.blockchain (height + 1) fork.blocks j = .ok block :=
    fun j below => forkBlockAt_total inside below
  obtain ⟨len,counted⟩ := validPrefix_total P m.params now fork.blocks 0 there
  obtain ⟨-,short,fits⟩ := validPrefix_ok counted
  rw [Nat.zero_add] at short
  have size := size_cut inside
  refine ⟨len,by rw [ChainManager.validPrefixLength,found]; exact counted,⟨short,fun i block less own => ?_⟩,
    fun more member => ?_⟩
  · have fit := fits i block (by omega) own
    rw [Nat.zero_add] at fit
    rw [size]
    exact (fits_rewound inside).mp fit
  · have := le_validPrefix counted member.1 fun j block less own => by
      have fit := member.2 j block less own
      rw [size] at fit
      rw [Nat.zero_add]
      exact (fits_rewound inside).mpr fit
    omega

/-- Only the blocks of a chain matter for what fits on it. -/
theorem fitting_congr {other : Blockchain} (same : chain.blocks = other.blocks) :
    Fitting P params now chain blocks = Fitting P params now other blocks := by
  have latest : chain.latest = other.latest := by
    unfold Blockchain.latest
    congr 1
  have views : ∀ added : List Block, (added.foldl addBlock chain).blockAt = (added.foldl addBlock other).blockAt := by
    intro added
    funext i
    rw [blockAt,blockAt,blocks_foldl_addBlock,blocks_foldl_addBlock,same,latest]
  simp only [Fitting,views,Blockchain.size,same]

end

/-- The valid length of a branch is the number of its blocks that pass the checks
    for a block on the tip one after another, on the chain cut back to the common
    ancestor: the greatest number of leading blocks each of which meets the
    contextual rules over the chain up to the ancestor and the blocks before it.
    No lookup raises, and what the chain has above the ancestor does not matter. -/
theorem validPrefixLength_rewinds (P : Primitives) (m : ChainManager) (fork : ForkChain) (now : UInt64) {height : Nat}
    (found : m.blockchain.findHeight fork.commonAncestor.hash = some height) (inside : height < m.blockchain.size) :
    ∃ len, m.validPrefixLength P fork now = .ok len ∧
      IsGreatest { len | len ≤ fork.blocks.length ∧ ∀ i block, i < len → fork.blocks[i]? = some block →
        timestampIsValid m.params ((fork.blocks.take i).foldl addBlock (m.blockchain.cut height)).blockAt now block
            (height + 1 + i) = .ok true ∧
          nextDifficulty P m.params ((fork.blocks.take i).foldl addBlock (m.blockchain.cut height)).blockAt
            (height + 1 + i) = .ok block.difficulty } len ∧
      passes P { m with blockchain := m.blockchain.cut height } now fork.blocks = .ok len ∧
      ∀ other : ChainManager, other.params = m.params →
        other.blockchain.findHeight fork.commonAncestor.hash = some height →
        (∀ i ≤ height, other.blockchain.blocks[i]? = m.blockchain.blocks[i]?) →
        other.validPrefixLength P fork now = .ok len := by
  obtain ⟨len,counted,greatest⟩ := validPrefixLength_greatest P now found inside
  obtain ⟨passed,run,most⟩ := passes_greatest P { m with blockchain := m.blockchain.cut height } now fork.blocks
  refine ⟨len,counted,?_,?_,fun other params found' same => ?_⟩
  · rw [Fitting,size_cut inside] at greatest
    exact greatest
  · rw [run,most.unique greatest]
  · have blocks : (other.blockchain.cut height).blocks = (m.blockchain.cut height).blocks := by
      refine List.ext_getElem? fun i => ?_
      simp only [cut,List.getElem?_take]
      split
      · exact same i (by omega)
      · rfl
    have inside' : height < other.blockchain.size := by
      have there := same height le_rfl
      rw [List.getElem?_eq_getElem inside] at there
      exact (List.getElem?_eq_some_iff.mp there).1
    obtain ⟨len',counted',greatest'⟩ := validPrefixLength_greatest P now found' inside'
    rw [params,fitting_congr blocks] at greatest'
    rw [counted',greatest'.unique greatest]

/-- Two blocks of another branch pass the checks behind genesis. -/
theorem validPrefixLength_rewinds_two :
    let m := submitAll start [plainA,plainA2]
    let fork : ForkChain := ⟨[plainB,plainB2],Block.genesis sample⟩
    m.validPrefixLength sample fork 2000 = .ok 2 ∧
      passes sample { m with blockchain := m.blockchain.cut 0 } 2000 fork.blocks = .ok 2 := by
  intro m fork
  have two : m.validPrefixLength sample fork 2000 = .ok 2 := by decide +kernel
  obtain ⟨len,counted,-,passed,-⟩ :=
    validPrefixLength_rewinds sample m fork 2000 (by decide +kernel : m.blockchain.findHeight _ = some 0)
      (by decide +kernel)
  obtain rfl := Except.ok.inj (two.symm.trans counted)
  exact ⟨two,passed⟩

end ForgeChain.Rewind
