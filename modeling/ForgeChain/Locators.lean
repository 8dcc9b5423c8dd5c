import ForgeChain.Sync
import ForgeChain.Payloads

/-!
What a locator samples of a chain and what another node finds with it. The
heights fall from the tip to genesis, one by one for ten blocks and then by
steps that double, so there are few of them, and below any height there is one
that is not farther from it than the tip is, less nine (`locator_exact`).
-/
namespace ForgeChain.Locators
open Blockchain Sync Samples

/-! ### The sampled heights -/

section
variable {fuel fuel' count step height : Nat}

/-- More rounds than there are heights are never used. -/
theorem locatorHeights_fuel (positive : 0 < step) (enough : height < fuel) (enough' : height < fuel') :
    locatorHeights fuel count step height = locatorHeights fuel' count step height := by
  induction fuel generalizing fuel' count step height with
  | zero => omega
  | succ fuel ih =>
    cases fuel' with
    | zero => omega
    | succ fuel' =>
      obtain ⟨wide,wide_eq,wider⟩ := wider_step count positive
      simp only [locatorHeights,wide_eq]
      split
      · rfl
      · split
        · rfl
        · exact congrArg (height :: ·) (ih wider (by omega) (by omega))

/-- Nine rounds at most go by before the step doubles, and then the steps add
    up to the height. -/
theorem length_locatorHeights (fuel count : Nat) {step : Nat} (positive : 0 < step) (height : Nat) :
    ∃ rounds, (locatorHeights fuel count step height).length ≤ 9 - count + rounds ∧
      step * 2 ^ rounds ≤ height + 2 * step := by
  induction fuel generalizing count step height with
  | zero => exact ⟨0,by simp [locatorHeights],by omega⟩
  | succ fuel ih =>
    rw [locatorHeights]
    dsimp only
    split
    · exact ⟨0,by simp,by omega⟩
    by_cases doubles : count + 1 ≥ 10
    · rw [if_pos doubles]
      split
      · exact ⟨1,by simp,by omega⟩
      · obtain ⟨rounds,short,sum⟩ := ih (count + 1) (by omega : 0 < step * 2) (height - step * 2)
        refine ⟨rounds + 1,by simp only [List.length_cons]; omega,?_⟩
        calc step * 2 ^ (rounds + 1) = step * 2 * 2 ^ rounds := by rw [Nat.pow_succ,Nat.mul_comm _ 2,Nat.mul_assoc]
          _ ≤ height - step * 2 + 2 * (step * 2) := sum
          _ ≤ height + 2 * step := by omega
    · rw [if_neg doubles]
      split
      · exact ⟨0,by simp; omega,by omega⟩
      · obtain ⟨rounds,short,sum⟩ := ih (count + 1) positive (height - step)
        exact ⟨rounds,by simp only [List.length_cons]; omega,by omega⟩

/-- The loop samples the height it starts at, unless that is genesis, which comes
    in the end. -/
theorem start_mem (enough : height < fuel) : height ∈ locatorHeights fuel count step height ++ [0] := by
  cases fuel with
  | zero => omega
  | succ fuel =>
    rw [locatorHeights]
    split
    · rename_i zero
      simp [zero]
    · simp

/-- Below a height there is a sampled one that is close, measured by how far
    the height is below the tip: it is the height itself among the ten highest,
    and otherwise at most as far down as the tip is up, less nine. -/
theorem locatorHeights_close {tip low : Nat} (positive : 0 < step) (enough : height < fuel) (below : low ≤ height)
    (phase : (count < 9 ∧ step = 1 ∧ tip = height + count) ∨ (9 ≤ count ∧ tip = height + 7 + 2 * step)) :
    ∃ h ∈ locatorHeights fuel count step height ++ [0], h ≤ low ∧ (tip - low ≤ 9 → h = low) ∧
      (10 ≤ tip - low → low - h ≤ tip - low - 9) := by
  induction fuel generalizing count step height with
  | zero => omega
  | succ fuel ih =>
    rw [locatorHeights]
    dsimp only
    split
    · exact ⟨0,by simp,by omega,by omega,by omega⟩
    rename_i above
    rcases Nat.eq_or_lt_of_le below with rfl | lower
    · exact ⟨low,by simp,le_rfl,fun _ => rfl,by omega⟩
    -- The height is below the one that is sampled here: it is in this gap or further down.
    obtain ⟨wide,wide_eq,wider⟩ := wider_step count positive
    rw [wide_eq]
    by_cases last : wide > height
    · rw [if_pos last]
      refine ⟨0,by simp,by omega,?_,?_⟩
      · split at wide_eq <;> omega
      · split at wide_eq <;> omega
    · rw [if_neg last]
      rcases Nat.lt_or_ge low (height - wide) with further | within
      · have next : (count + 1 < 9 ∧ wide = 1 ∧ tip = height - wide + (count + 1)) ∨
            (9 ≤ count + 1 ∧ tip = height - wide + 7 + 2 * wide) := by
          split at wide_eq <;> omega
        obtain ⟨h,member,close⟩ := ih wider (by omega) (by omega) next
        exact ⟨h,List.mem_cons_of_mem _ member,close⟩
      · refine ⟨height - wide,List.mem_cons_of_mem _ (start_mem (by omega)),by omega,?_,?_⟩
        · split at wide_eq <;> omega
        · split at wide_eq <;> omega

/-! ### The sampled heights of a chain -/

variable {size : Nat}

theorem sampled_close {low : Nat} (below : low < size) :
    ∃ h ∈ sampled size, h ≤ low ∧ (size - 1 - low ≤ 9 → h = low) ∧
      (10 ≤ size - 1 - low → low - h ≤ size - 1 - low - 9) :=
  locatorHeights_close Nat.one_pos (by omega) (by omega) (.inl ⟨by decide,rfl,rfl⟩)

theorem mem_sampled_of_high {h : Nat} (below : h < size) (high : size ≤ h + 10) : h ∈ sampled size := by
  obtain ⟨same,member,-,exact,-⟩ := sampled_close below
  rwa [exact (by omega)] at member

theorem head?_sampled (positive : 0 < size) : (sampled size).head? = some (size - 1) := by
  obtain ⟨n,rfl⟩ := Nat.exists_eq_add_of_le' positive
  rw [sampled,locatorHeights,Nat.add_sub_cancel]
  split
  · rename_i zero
    simp [zero]
  · simp

theorem length_sampled (positive : 0 < size) : (sampled size).length ≤ 11 + Nat.log2 size := by
  obtain ⟨rounds,short,sum⟩ := length_locatorHeights size 0 Nat.one_pos (size - 1)
  rw [sampled,List.length_append,List.length_singleton]
  have few : rounds - 1 ≤ Nat.log2 size := by
    rw [Nat.le_log2 (by omega)]
    cases rounds with
    | zero => exact positive
    | succ rounds =>
      rw [Nat.pow_succ] at sum
      rw [Nat.add_sub_cancel]
      omega
  omega

end

/-! ### Two chains -/

/-- What the hash of a block stands for: all of it but the work, which the chain
    that holds the block adds. -/
def content (block : Block) : Block := { block with cumulativeWork := 0 }

theorem hash_of_content {left right : Block} (same : content left = content right) : left.hash = right.hash := by
  have := congrArg Block.hash same
  exact this

theorem prevHash_of_content {left right : Block} (same : content left = content right) :
    left.prevHash = right.prevHash := by
  have := congrArg Block.prevHash same
  exact this

/-- Two chains have the same block at a height. -/
def SameAt (one other : Blockchain) (height : Nat) : Prop :=
  ∃ left right, one.blocks[height]? = some left ∧ other.blocks[height]? = some right ∧ content left = content right

instance (one other : Blockchain) (height : Nat) : Decidable (SameAt one other height) :=
  match left : one.blocks[height]?, right : other.blocks[height]? with
  | some a, some b => decidable_of_iff (content a = content b) (by simp [SameAt,left,right])
  | none, _ => isFalse (by simp [SameAt,left])
  | some _, none => isFalse (by simp [SameAt,right])

/-- Two chains that part above a height: both name each block's predecessor and
    find exactly their own blocks, no two contents have the same hash, and the
    height is the last one up to which their blocks are the same. -/
structure PartAbove (one other : Blockchain) (height : Nat) : Prop where
  indexed : one.Indexed
  indexed' : other.Indexed
  linked : one.blocks.IsChain fun parent block => block.prevHash = parent.hash
  linked' : other.blocks.IsChain fun parent block => block.prevHash = parent.hash
  collisionFree : ∀ left ∈ one.blocks, ∀ right ∈ other.blocks, left.hash = right.hash → content left = content right
  shared : ∀ h ≤ height, SameAt one other h
  parts : ¬ SameAt one other (height + 1)

section
variable {one other : Blockchain} {height i j : Nat} {left right : Block}

theorem parent_of_chain {blocks : List Block} (linked : blocks.IsChain fun parent block => block.prevHash = parent.hash)
    (there : blocks[i + 1]? = some right) : ∃ parent, blocks[i]? = some parent ∧ right.prevHash = parent.hash := by
  obtain ⟨inside,rfl⟩ := List.getElem?_eq_some_iff.mp there
  exact ⟨blocks[i],List.getElem?_eq_getElem (by omega),List.isChain_iff_getElem.mp linked i inside⟩

/-- Blocks of the same hash have the same blocks below them, so they are at the
    same height. -/
theorem PartAbove.same_below (apart : PartAbove one other height) (at_i : one.blocks[i]? = some left)
    (at_j : other.blocks[j]? = some right) (same : left.hash = right.hash) :
    i = j ∧ ∀ h ≤ i, SameAt one other h := by
  have equal := apart.collisionFree left (List.mem_of_getElem? at_i) right (List.mem_of_getElem? at_j) same
  obtain ⟨root,root',at_root,at_root',roots⟩ := apart.shared 0 (Nat.zero_le _)
  have root_hash := hash_of_content roots
  induction i generalizing j left right with
  | zero =>
    obtain rfl := Option.some.inj (at_i.symm.trans at_root)
    obtain rfl := apart.indexed'.unique at_j at_root' (same.symm.trans root_hash)
    refine ⟨rfl,fun h low => ?_⟩
    rw [Nat.le_zero.mp low]
    exact apart.shared 0 (Nat.zero_le _)
  | succ i ih =>
    cases j with
    | zero =>
      obtain rfl := Option.some.inj (at_j.symm.trans at_root')
      exact absurd (apart.indexed.unique at_i at_root (same.trans root_hash.symm)) (Nat.succ_ne_zero i)
    | succ j =>
      obtain ⟨parent,below,named⟩ := parent_of_chain apart.linked at_i
      obtain ⟨parent',below',named'⟩ := parent_of_chain apart.linked' at_j
      have parents : parent.hash = parent'.hash := by rw [← named,← named',prevHash_of_content equal]
      have equal' :=
        apart.collisionFree parent (List.mem_of_getElem? below) parent' (List.mem_of_getElem? below') parents
      obtain ⟨rfl,lower⟩ := ih below below' parents equal'
      refine ⟨rfl,fun h low => ?_⟩
      rcases Nat.le_succ_iff.mp low with less | rfl
      · exact lower h less
      · exact ⟨left,right,at_i,at_j,equal⟩

/-- One chain finds a block of the other exactly at its own height among the
    shared ones. -/
theorem PartAbove.findHeight_iff (apart : PartAbove one other height) (there : other.blocks[j]? = some right) :
    one.findHeight right.hash = some i ↔ i = j ∧ j ≤ height := by
  rw [apart.indexed right.hash i]
  constructor
  · intro found
    obtain ⟨left,at_i,same⟩ := Option.map_eq_some_iff.mp found
    obtain ⟨rfl,lower⟩ := apart.same_below at_i there same
    refine ⟨rfl,?_⟩
    by_contra above
    exact apart.parts (lower (height + 1) (by omega))
  · rintro ⟨rfl,low⟩
    obtain ⟨left,right',at_i,at_j,same⟩ := apart.shared i low
    obtain rfl := Option.some.inj (there.symm.trans at_j)
    rw [at_i,Option.map_some,hash_of_content same]

/-- The first hash of a locator that the other node finds is that of the highest
    sampled block they share. -/
theorem PartAbove.match_greatest (apart : PartAbove one other height) :
    ∃ locator h, buildLocator other = .ok locator ∧ findLocatorMatch one locator = some h ∧
      IsGreatest { h | h ∈ sampled other.size ∧ h ≤ height } h := by
  have below : ∀ h ∈ sampled other.size, h < other.size := fun h member => sampled_below other.size_pos member
  obtain ⟨locator,sent,found⟩ := findSome?_hashes one.findHeight below
  have finds : ∀ h ∈ sampled other.size, ∀ k,
      (other.blocks[h]?.bind fun block => one.findHeight block.hash) = some k ↔ k = h ∧ h ≤ height := by
    intro h member k
    have there := List.getElem?_eq_getElem (below h member)
    rw [there,Option.bind_some,apart.findHeight_iff there]
  obtain ⟨h,first,greatest⟩ :=
    findSome?_greatest (sampled_sorted _) finds ⟨0,by simp [sampled],Nat.zero_le _⟩
  exact ⟨locator,h,sent,by rw [findLocatorMatch,found,first],greatest⟩

end

/-! ### What is sent and what is found -/

/-- The locator of a chain has the hashes of the sampled heights. -/
theorem buildLocator_hashes (chain : Blockchain) :
    ∃ hashes, buildLocator chain = .ok hashes ∧
      List.Forall₂ (fun h hash => ∃ block, chain.blocks[h]? = some block ∧ block.hash = hash) (sampled chain.size)
        hashes := by
  have below : ∀ h ∈ sampled chain.size, h < chain.size := fun h member => sampled_below chain.size_pos member
  obtain ⟨hashes,read,-⟩ := findSome?_hashes (fun _ => none) below
  refine ⟨hashes,read,(mapM_forall₂ read).imp fun h hash there => ?_⟩
  rcases found : chain.blockAt h with e | block
  · rw [found] at there
    cases there
  · rw [found] at there
    exact ⟨block,blockAt_eq_ok.mp found,Except.ok.inj there⟩

/-- Every chain has a short locator that falls from its tip to genesis and that
    the decoder takes. With it another node finds a shared block: the last one
    if it is at most nine below the tip, and otherwise one that is at most as
    far below the last one as that is below the tip, less nine. -/
theorem locator_exact :
    (∀ chain : Blockchain, ∃ heights hashes, buildLocator chain = .ok hashes ∧
      (∀ fuel, chain.size ≤ fuel → locatorHeights fuel 0 1 (chain.size - 1) ++ [0] = heights) ∧
      List.Forall₂ (fun h hash => ∃ block, chain.blocks[h]? = some block ∧ block.hash = hash) heights hashes ∧
      heights.Pairwise (· > ·) ∧ heights.head? = some (chain.size - 1) ∧ heights.getLast? = some 0 ∧
      (∀ h < chain.size, chain.size ≤ h + min chain.size 10 → h ∈ heights) ∧
      hashes.length ≤ 11 + Nat.log2 chain.size ∧
      (chain.size < 2 ^ 64 → deserializeGetblocks (serializeGetblocks hashes) = some hashes)) ∧
    ∀ one other height, PartAbove one other height →
      ∃ locator h, buildLocator other = .ok locator ∧ findLocatorMatch one locator = some h ∧ h ≤ height ∧
        (∀ lower ≤ h, SameAt one other lower) ∧
        (other.size - 1 - height ≤ 9 → h = height) ∧
        (10 ≤ other.size - 1 - height → height - h ≤ other.size - 1 - height - 9) := by
  refine ⟨fun chain => ?_,fun one other height apart => ?_⟩
  · obtain ⟨hashes,built,each⟩ := buildLocator_hashes chain
    have positive := chain.size_pos
    have short : hashes.length ≤ 11 + Nat.log2 chain.size := by
      rw [← each.length_eq]
      exact length_sampled positive
    refine ⟨sampled chain.size,hashes,built,fun fuel enough => ?_,each,sampled_sorted _,head?_sampled positive,
      by simp [sampled],fun h below high => mem_sampled_of_high below (by omega),short,fun machine => ?_⟩
    · rw [sampled,locatorHeights_fuel Nat.one_pos (by omega) (by omega : chain.size - 1 < chain.size)]
    · refine (decodes_getblocks _ _).mpr ⟨?_,rfl⟩
      have few : Nat.log2 chain.size < 64 := (Nat.log2_lt (by omega)).mpr machine
      show hashes.length ≤ 1028
      omega
  · obtain ⟨locator,h,built,found,⟨member,low⟩,greatest⟩ := apart.match_greatest
    obtain ⟨left,right,-,at_height,-⟩ := apart.shared height le_rfl
    have below : height < other.size := (List.getElem?_eq_some_iff.mp at_height).1
    obtain ⟨near,inside,lower,exact,close⟩ := sampled_close below
    -- The height found is no lower than the close one that is sampled.
    have higher : near ≤ h := greatest ⟨inside,lower⟩
    refine ⟨locator,h,built,found,low,fun k less => apart.shared k (less.trans low),fun few => ?_,fun many => ?_⟩
    · have := exact few
      omega
    · have := close many
      omega

/-- Blocks with given hashes, each naming the one before it. -/
def path : HashBytes → List Nat → List Block
  | _, [] => []
  | parent, number :: rest =>
    { plainA with prevHash := parent, hash := ofNat number } :: path (ofNat number) rest

/-- A chain of such blocks on top of genesis. -/
def strand (numbers : List Nat) : Blockchain :=
  (path (Block.genesis sample).hash numbers).foldl addBlock (.new sample)

theorem partAbove_strands : PartAbove (strand [1,2,3,100]) (strand [1,2,3,4,5,6,7,8,9,10,11,12,13,14,15]) 3 where
  indexed := (indexed_new sample).foldl_addBlock (by decide +kernel)
  indexed' := (indexed_new sample).foldl_addBlock (by decide +kernel)
  linked := by decide +kernel
  linked' := by decide +kernel
  collisionFree := by decide +kernel
  shared h low := (by decide +kernel : ∀ h < 4, SameAt (strand [1,2,3,100]) _ h) h (by omega)
  parts := by decide +kernel

/-- Twelve blocks above the last shared one, it is three blocks below it that a
    block is found. -/
theorem locator_exact_tight :
    PartAbove (strand [1,2,3,100]) (strand [1,2,3,4,5,6,7,8,9,10,11,12,13,14,15]) 3 ∧
      (∃ locator h, buildLocator (strand [1,2,3,4,5,6,7,8,9,10,11,12,13,14,15]) = .ok locator ∧
        findLocatorMatch (strand [1,2,3,100]) locator = some h ∧ h ≤ 3 ∧ 3 - h ≤ 12 - 9) ∧
      (buildLocator (strand [1,2,3,4,5,6,7,8,9,10,11,12,13,14,15])).map (findLocatorMatch (strand [1,2,3,100])) =
        .ok (some 0) := by
  obtain ⟨locator,h,built,found,low,-,-,close⟩ := locator_exact.2 _ _ _ partAbove_strands
  exact ⟨partAbove_strands,⟨locator,h,built,found,low,close (by decide +kernel)⟩,by decide +kernel⟩

end ForgeChain.Locators
