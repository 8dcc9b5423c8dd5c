import ForgeChain.Samples

/-!
The difficulties that a chain declares. They stay as they are inside an epoch
of `retarget_interval` blocks; at its end they move by at most two bits and not
below the floor. The first two epochs have the initial difficulty, so from the
genesis on a height bounds what its block can declare (`epochs_bounded`),
whatever the timestamps say.
-/
namespace ForgeChain.Epochs
open Samples

/-- The block at a height declares the difficulty that the blocks below it ask
    for. -/
def declares (P : Primitives) (params : ConsensusParams) (chain : Blockchain) (height : Nat) : Bool :=
  match chain.blockAt height, nextDifficulty P params chain.blockAt height with
  | .ok block, .ok difficulty => block.difficulty = difficulty
  | _, _ => false

/-- Every block above the first declares the difficulty that is asked for. -/
def Declared (P : Primitives) (params : ConsensusParams) (chain : Blockchain) : Prop :=
  ∀ height < chain.size, 1 ≤ height → declares P params chain height = true

instance (P : Primitives) (params : ConsensusParams) (chain : Blockchain) : Decidable (Declared P params chain) :=
  inferInstanceAs (Decidable (∀ height < chain.size, _))

/-! ### One adjustment -/

section
variable {P : Primitives}

/-- Two difficulties are at most two bits apart. -/
def Near (old new : UInt32) : Prop := new.toNat ≤ old.toNat + 2 ∧ old.toNat ≤ new.toNat + 2

theorem near_self (difficulty : UInt32) : Near difficulty difficulty := ⟨by omega,by omega⟩

theorem clamped_step (delta : Int) :
    ∃ step : Int, (if delta > kMaxStepBits then kMaxStepBits else
      if delta < -kMaxStepBits then -kMaxStepBits else delta) = step ∧ -2 ≤ step ∧ step ≤ 2 := by
  refine ⟨_,rfl,?_⟩
  unfold kMaxStepBits
  split
  · decide
  · split <;> omega

/-- Whatever the rounded logarithm is, an adjustment is one of at most two bits. -/
theorem retarget_near (P : Primitives) (old : UInt32) (actual expected : UInt64) :
    Near old (retarget P old actual expected) := by
  have fits := old.toNat_lt
  unfold retarget
  dsimp only
  split
  · exact near_self old
  · generalize P.llroundLog2 expected (if actual = 0 then 1 else actual) = delta
    obtain ⟨step,step_eq,low,high⟩ := clamped_step delta
    rw [step_eq]
    split
    · split
      · refine ⟨?_,?_⟩
        · show 4294967295 ≤ _
          omega
        · show _ ≤ 4294967295 + 2
          omega
      · unfold Near
        rw [UInt32.toNat_ofNat_of_lt' (by rw [UInt32.size]; omega)]
        omega
    · split
      · split
        · refine ⟨Nat.zero_le _,?_⟩
          show _ ≤ 0 + 2
          omega
        · rename_i more
          have small : (UInt32.ofNat (-step).toNat).toNat = (-step).toNat :=
            UInt32.toNat_ofNat_of_lt' (by rw [UInt32.size]; omega)
          unfold Near
          rw [UInt32.toNat_sub_of_le _ _ (by rw [UInt32.le_iff_toNat_le,small]; omega),small]
          omega
      · exact near_self old

theorem toNat_max (left right : UInt32) : (max left right).toNat = max left.toNat right.toNat := by
  show (if left ≤ right then right else left).toNat = _
  split
  · rename_i less
    exact (Nat.max_eq_right (UInt32.le_iff_toNat_le.mp less)).symm
  · rename_i more
    exact (Nat.max_eq_left (UInt32.le_iff_toNat_le.mp (UInt32.le_of_lt (UInt32.not_le.mp more)))).symm

/-- The floor does not make an adjustment larger where the difficulty was not
    below it. -/
theorem near_floor {old new floor : UInt32} (near : Near old new) (above : floor.toNat ≤ old.toNat) :
    Near old (max new floor) := by
  unfold Near at near ⊢
  rw [toNat_max]
  omega

end

/-! ### Along a chain -/

section
variable {P : Primitives} {params : ConsensusParams} {chain : Blockchain} {height : Nat} {block : Block}

/-- How a block comes by its difficulty. -/
inductive Origin (P : Primitives) (params : ConsensusParams) (chain : Blockchain) (height : Nat) (block : Block) : Prop
  | initial (early : height ≤ params.retargetInterval) (same : block.difficulty = params.initialDifficulty)
  | inherited (late : params.retargetInterval < height) (within : ¬ height % params.retargetInterval = 0)
      (parent : Block) (below : chain.blocks[height - 1]? = some parent) (same : block.difficulty = parent.difficulty)
  | adjusted (late : params.retargetInterval < height) (boundary : height % params.retargetInterval = 0)
      (parent : Block) (below : chain.blocks[height - 1]? = some parent) (actual expected : UInt64)
      (same : block.difficulty = max (retarget P parent.difficulty actual expected) params.minDifficulty)

theorem Declared.origin (declared : Declared P params chain) (interval : 2 ≤ params.retargetInterval)
    (above : 1 ≤ height) (there : chain.blocks[height]? = some block) : Origin P params chain height block := by
  have inside : height < chain.size := (List.getElem?_eq_some_iff.mp there).1
  have asked := declared height inside above
  rw [declares,Blockchain.blockAt_eq_ok.mpr there] at asked
  unfold nextDifficulty at asked
  by_cases early : height ≤ params.retargetInterval
  · rw [if_pos (.inr early)] at asked
    exact .initial early (of_decide_eq_true asked)
  · obtain ⟨parent,below⟩ := Blockchain.blockAt_below (by omega : height - 1 < chain.size)
    obtain ⟨first,start⟩ := Blockchain.blockAt_below (by omega : height - params.retargetInterval < chain.size)
    have late : params.retargetInterval < height := by omega
    rw [if_neg (by omega),below] at asked
    by_cases boundary : height % params.retargetInterval = 0
    · simp only [bind,Except.bind,boundary,ne_eq,not_true_eq_false,if_false,start] at asked
      exact .adjusted late boundary parent (Blockchain.blockAt_eq_ok.mp below) _ _ (of_decide_eq_true asked)
    · simp only [bind,Except.bind,boundary,ne_eq,not_false_eq_true,if_true] at asked
      exact .inherited late boundary parent (Blockchain.blockAt_eq_ok.mp below) (of_decide_eq_true asked)

variable (declared : Declared P params chain) (interval : 2 ≤ params.retargetInterval)
include declared interval

/-- Two epochs pass before the first adjustment. -/
theorem initial_of_early (above : 1 ≤ height) (early : height < 2 * params.retargetInterval)
    (there : chain.blocks[height]? = some block) : block.difficulty = params.initialDifficulty := by
  induction height using Nat.strong_induction_on generalizing block with
  | _ height ih =>
    cases declared.origin interval above there with
    | initial early same => exact same
    | inherited late within parent below same =>
      rw [same]
      exact ih (height - 1) (by omega) (by omega) (by omega) below
    | adjusted late boundary parent below actual expected same =>
      -- The only multiple of the interval in the second epoch is its end.
      obtain ⟨k,multiple⟩ := Nat.dvd_of_mod_eq_zero boundary
      have one : 1 < k := by
        by_contra few
        have := Nat.mul_le_mul_left params.retargetInterval (by omega : k ≤ 1)
        omega
      have := Nat.mul_le_mul_left params.retargetInterval one
      omega

theorem floor_le (floor : params.minDifficulty ≤ params.initialDifficulty) (above : 1 ≤ height)
    (there : chain.blocks[height]? = some block) : params.minDifficulty.toNat ≤ block.difficulty.toNat := by
  induction height using Nat.strong_induction_on generalizing block with
  | _ height ih =>
    cases declared.origin interval above there with
    | initial early same =>
      rw [same]
      exact UInt32.le_iff_toNat_le.mp floor
    | inherited late within parent below same =>
      rw [same]
      exact ih (height - 1) (by omega) (by omega) below
    | adjusted late boundary parent below actual expected same =>
      rw [same,toNat_max]
      exact Nat.le_max_right _ _

/-- From a block to the next one the difficulty moves by at most two bits, and
    only where a later epoch ends. -/
theorem difficulty_step (floor : params.minDifficulty ≤ params.initialDifficulty) {parent : Block} (above : 1 ≤ height)
    (below : chain.blocks[height]? = some parent) (there : chain.blocks[height + 1]? = some block) :
    Near parent.difficulty block.difficulty ∧
      (block.difficulty ≠ parent.difficulty → ∃ k, 2 ≤ k ∧ height + 1 = k * params.retargetInterval) := by
  have unchanged : block.difficulty = parent.difficulty → Near parent.difficulty block.difficulty ∧
      (block.difficulty ≠ parent.difficulty → ∃ k, 2 ≤ k ∧ height + 1 = k * params.retargetInterval) :=
    fun same => ⟨same ▸ near_self _,fun differs => absurd same differs⟩
  cases declared.origin interval (Nat.le_add_left 1 height) there with
  | initial early same =>
    have before := initial_of_early declared interval above (by omega) below
    exact unchanged (same.trans before.symm)
  | inherited late within earlier below' same =>
    obtain rfl := Option.some.inj (below.symm.trans below')
    exact unchanged same
  | adjusted late boundary earlier below' actual expected same =>
    obtain rfl := Option.some.inj (below.symm.trans below')
    constructor
    · rw [same]
      exact near_floor (retarget_near P _ actual expected) (floor_le declared interval floor above below)
    · intro differs
      obtain ⟨k,multiple⟩ := Nat.dvd_of_mod_eq_zero boundary
      refine ⟨k,?_,by rw [multiple,Nat.mul_comm]⟩
      by_contra few
      have := Nat.mul_le_mul_left params.retargetInterval (by omega : k ≤ 1)
      omega

/-- Every epoch after the first adds at most two bits. -/
theorem difficulty_le (floor : params.minDifficulty ≤ params.initialDifficulty)
    (late : params.retargetInterval ≤ height)
    (there : chain.blocks[height]? = some block) :
    block.difficulty.toNat ≤ params.initialDifficulty.toNat + 2 * (height / params.retargetInterval - 1) := by
  induction height, late using Nat.le_induction generalizing block with
  | base =>
    rw [initial_of_early declared interval (by omega) (by omega) there]
    omega
  | succ height late ih =>
    have inside := (List.getElem?_eq_some_iff.mp there).1
    have below : chain.blocks[height]? = some chain.blocks[height] := List.getElem?_eq_getElem (by omega)
    have before := ih below
    obtain ⟨near,changes⟩ := difficulty_step declared interval floor (by omega) below there
    by_cases same : block.difficulty = chain.blocks[height].difficulty
    · rw [same]
      have := Nat.div_le_div_right (c := params.retargetInterval) (Nat.le_add_right height 1)
      omega
    · -- The difficulty moved, so another epoch ends here.
      obtain ⟨k,-,multiple⟩ := changes same
      have epoch : (height + 1) / params.retargetInterval = _ := Nat.succ_div
      rw [if_pos ⟨k,by rw [multiple,Nat.mul_comm]⟩] at epoch
      have first := Nat.div_pos late (by omega)
      have high := near.1
      rw [epoch]
      omega

end

/-- Blocks that declare what a rule asks for, on top of genesis. -/
def declaring (P : Primitives) (params : ConsensusParams) (times : List UInt64) : Blockchain :=
  times.foldl (fun chain time =>
    chain.addBlock { plainA with
      timestamp := time, hash := ofNat time.toNat
      difficulty := (nextDifficulty P params chain.blockAt chain.size).toOption.getD 0 }) (.new P)

/-- A rounded logarithm that is always five. -/
def rising : Primitives := { sample with llroundLog2 := fun _ _ => 5 }

/-- Epochs of two blocks. -/
def shortEpochs : ConsensusParams := { testParams with retargetInterval := 2 }

/-- In a chain that declares what is asked for, the first two epochs have the
    initial difficulty, later ones move it by at most two bits where they end,
    it never falls below the floor, and the height bounds it from above. Nothing
    at or above a height is read for it. -/
theorem epochs_bounded {P : Primitives} {params : ConsensusParams} {chain : Blockchain}
    (interval : 2 ≤ params.retargetInterval) (floor : params.minDifficulty ≤ params.initialDifficulty)
    (declared : Declared P params chain) :
    (∀ height block, 1 ≤ height → height ≤ 2 * params.retargetInterval - 1 → chain.blocks[height]? = some block →
      block.difficulty = params.initialDifficulty) ∧
    (∀ height parent block, 1 ≤ height → chain.blocks[height]? = some parent → chain.blocks[height + 1]? = some block →
      block.difficulty.toNat ≤ parent.difficulty.toNat + 2 ∧ parent.difficulty.toNat ≤ block.difficulty.toNat + 2 ∧
        (block.difficulty ≠ parent.difficulty → ∃ k, 2 ≤ k ∧ height + 1 = k * params.retargetInterval)) ∧
    (∀ height block, 1 ≤ height → chain.blocks[height]? = some block → params.minDifficulty ≤ block.difficulty) ∧
    (∀ height block, params.retargetInterval ≤ height → chain.blocks[height]? = some block →
      block.difficulty.toNat ≤ params.initialDifficulty.toNat + 2 * (height / params.retargetInterval - 1)) ∧
    ∀ height window view, (∀ i < height, view i = chain.blockAt i) →
      nextDifficulty P params view height = nextDifficulty P params chain.blockAt height ∧
        medianTimePast window view height = medianTimePast window chain.blockAt height := by
  refine ⟨fun height block above early there => ?_,fun height parent block above below there => ?_,
    fun height block above there => ?_,fun height block late there => ?_,fun height window view same => ?_⟩
  · exact initial_of_early declared interval above (by omega) there
  · obtain ⟨near,changes⟩ := difficulty_step declared interval floor above below there
    exact ⟨near.1,near.2,changes⟩
  · exact UInt32.le_iff_toNat_le.mpr (floor_le declared interval floor above there)
  · exact difficulty_le declared interval floor late there
  · exact ⟨nextDifficulty_congr (.of_eq same),medianTimePast_congr (.of_eq same)⟩

/-- Every epoch of two blocks adds two bits, whatever the timestamps are. -/
theorem epochs_bounded_rising :
    Declared rising shortEpochs (declaring rising shortEpochs [9,8,7,6,5,4]) ∧
      (declaring rising shortEpochs [9,8,7,6,5,4]).blocks.map Block.difficulty = [0,4,4,4,6,6,8] ∧
      ∀ height block, 2 ≤ height → (declaring rising shortEpochs [9,8,7,6,5,4]).blocks[height]? = some block →
        block.difficulty.toNat ≤ 4 + 2 * (height / 2 - 1) := by
  have declared : Declared rising shortEpochs (declaring rising shortEpochs [9,8,7,6,5,4]) := by decide +kernel
  exact ⟨declared,by decide +kernel,(epochs_bounded (by decide) (by decide) declared).2.2.2.1⟩

end ForgeChain.Epochs
