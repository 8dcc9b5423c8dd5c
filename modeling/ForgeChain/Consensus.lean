import ForgeChain.Block
import Mathlib.Data.List.Sort

/-!
The consensus rules of `src/consensus/ProofOfWork.cpp`. The contextual rules
read the blocks below a height through a callback that raises outside its
range; `nextDifficulty_congr` and `medianTimePast_congr` say that they read
nothing at or above that height.
-/
namespace ForgeChain

structure ConsensusParams where
  initialDifficulty : UInt32
  minDifficulty : UInt32
  targetBlockTime : UInt64
  retargetInterval : Nat
  mtpWindow : Nat
  maxFutureDrift : UInt64
  deriving DecidableEq

/-- `mining_reward`. -/
def miningReward : UInt64 := 50

/-! ### Proof of work -/

/-- The bits of a byte from `mask` down, counted until the first one; whether
    there was a one. -/
def countZeros (byte : UInt8) : Nat → UInt8 → UInt32 → UInt32 × Bool
  | 0, _, result => (result,false)
  | left+1, mask, result =>
    if byte &&& mask = 0 then countZeros byte left (mask >>> 1) (result + 1) else (result,true)

/-- The zero bits before the first one. -/
def leadingZeros : Bytes → UInt32 → UInt32
  | [], result => result
  | byte :: rest, result =>
    match countZeros byte 8 0x80 result with
    | (result,true) => result
    | (result,false) => leadingZeros rest result

def meetsTarget (hash : HashBytes) (difficulty : UInt32) : Bool := leadingZeros hash.bytes 0 ≥ difficulty

/-! ### Coinbase -/

/-- The position of the only coinbase, if there is one; `none` on a second one. -/
def findCoinbase : List Transaction → Nat → Option Nat → Option (Option Nat)
  | [], _, found => some found
  | tx :: rest, i, found =>
    if tx.isCoinbase then
      if found.isSome then none else findCoinbase rest (i + 1) (some i)
    else findCoinbase rest (i + 1) found

/-- The fees of every transaction but the one at `index`, from position `i` on. -/
def feesTotal (index : Nat) : List Transaction → Nat → UInt64 → UInt64
  | [], _, total => total
  | tx :: rest, i, total => feesTotal index rest (i + 1) (if i = index then total else total + tx.fee)

def validateCoinbaseAmount (txs : List Transaction) : Bool :=
  match findCoinbase txs 0 none with
  | none => false
  | some none => true
  | some (some index) =>
    match txs[index]? with
    | none => false
    | some coinbase => coinbase.amount ≤ miningReward + feesTotal index txs 0 0

/-! ### Difficulty -/

def kMaxStepBits : Int := 2

def retarget (P : Primitives) (oldDifficulty : UInt32) (actualTime expectedTime : UInt64) : UInt32 :=
  let actualTime := if actualTime = 0 then 1 else actualTime
  if expectedTime = 0 then oldDifficulty
  else
    let delta := P.llroundLog2 expectedTime actualTime
    let delta := if delta > kMaxStepBits then kMaxStepBits else if delta < -kMaxStepBits then -kMaxStepBits else delta
    if delta > 0 then
      let newDifficulty := oldDifficulty.toNat + delta.toNat
      if newDifficulty > 0xFFFFFFFF then 0xFFFFFFFF else UInt32.ofNat newDifficulty
    else if delta < 0 then
      let decrease := (-delta).toNat
      if decrease ≥ oldDifficulty.toNat then 0 else oldDifficulty - UInt32.ofNat decrease
    else oldDifficulty

def nextDifficulty (P : Primitives) (params : ConsensusParams) (blockAt : Nat → Except Exn Block) (height : Nat) :
    Except Exn UInt32 :=
  let interval := params.retargetInterval
  if interval < 2 ∨ height ≤ interval then .ok params.initialDifficulty
  else do
    let parent ← blockAt (height - 1)
    if height % interval ≠ 0 then .ok parent.difficulty
    else do
      let first ← blockAt (height - interval)
      let actual := if parent.timestamp > first.timestamp then parent.timestamp - first.timestamp else 0
      let expected := UInt64.ofNat (interval - 1) * params.targetBlockTime
      .ok (max (retarget P parent.difficulty actual expected) params.minDifficulty)

/-! ### Timestamps -/

def medianTimePast (window : Nat) (blockAt : Nat → Except Exn Block) (height : Nat) : Except Exn UInt64 :=
  if height = 0 ∨ window = 0 then .ok 0
  else do
    let start := if height > window then height - window else 0
    let timestamps ← (List.range' start (height - start)).mapM fun i => (blockAt i).map Block.timestamp
    let timestamps := timestamps.insertionSort (· ≤ ·)
    .ok (timestamps.getD (timestamps.length / 2) 0)

def timestampIsValid (params : ConsensusParams) (blockAt : Nat → Except Exn Block) (now : UInt64) (block : Block)
    (height : Nat) : Except Exn Bool :=
  if block.timestamp > now ∧ block.timestamp - now > params.maxFutureDrift then .ok false
  else do
    let median ← medianTimePast params.mtpWindow blockAt height
    .ok (¬ block.timestamp ≤ median)

/-! ### What the contextual rules read -/

section
variable {P : Primitives} {params : ConsensusParams} {blockAt blockAt' : Nat → Except Exn Block} {height : Nat}

theorem mapM_same {α β : Type} {f g : α → Except Exn β} :
    ∀ items : List α, (∀ item ∈ items, f item = g item) → items.mapM f = items.mapM g
  | [], _ => rfl
  | item :: items, each => by
    simp only [List.mapM_cons,each item (by simp),mapM_same items (fun other member => each other (by simp [member]))]

theorem mapM_total {α β : Type} (f : α → Except Exn β) :
    ∀ items : List α, (∀ item ∈ items, ∃ result, f item = .ok result) → ∃ results, items.mapM f = .ok results
  | [], _ => ⟨[],rfl⟩
  | item :: items, each => by
    obtain ⟨result,first⟩ := each item (by simp)
    obtain ⟨results,rest⟩ := mapM_total f items (fun other member => each other (by simp [member]))
    exact ⟨result :: results,by simp [List.mapM_cons,first,rest,bind,Except.bind,pure,Except.pure]⟩

/-- The part of a block that the contextual rules of later blocks read. -/
def Block.timing (block : Block) : UInt64 × UInt32 := (block.timestamp,block.difficulty)

/-- Two views of the blocks below a height that the contextual rules cannot
    tell apart. -/
def SameBelow (height : Nat) (blockAt blockAt' : Nat → Except Exn Block) : Prop :=
  ∀ i < height, (blockAt i).map Block.timing = (blockAt' i).map Block.timing

theorem SameBelow.of_eq (same : ∀ i < height, blockAt i = blockAt' i) : SameBelow height blockAt blockAt' :=
  fun i below => by rw [same i below]

theorem SameBelow.symm (same : SameBelow height blockAt blockAt') : SameBelow height blockAt' blockAt :=
  fun i below => (same i below).symm

theorem nextDifficulty_congr (same : SameBelow height blockAt blockAt') :
    nextDifficulty P params blockAt height = nextDifficulty P params blockAt' height := by
  unfold nextDifficulty
  by_cases early : params.retargetInterval < 2 ∨ height ≤ params.retargetInterval
  · simp only [early,if_true]
  · have parent := same (height - 1) (by omega)
    have first := same (height - params.retargetInterval) (by omega)
    simp only [early,if_false]
    -- Each lookup raises the same in both views or returns blocks of the same timing.
    rcases hp : blockAt (height - 1) with e | b <;> rcases hp' : blockAt' (height - 1) with e' | b' <;>
      simp only [hp,hp',Except.map,reduceCtorEq,Except.error.injEq,Except.ok.injEq,Block.timing,Prod.mk.injEq] at parent
    · simp [parent,bind,Except.bind]
    · rcases hf : blockAt (height - params.retargetInterval) with e | b <;>
        rcases hf' : blockAt' (height - params.retargetInterval) with e' | b' <;>
        simp only [hf,hf',Except.map,reduceCtorEq,Except.error.injEq,Except.ok.injEq,Block.timing,Prod.mk.injEq] at first
      · simp [parent,first,bind,Except.bind]
      · simp [parent,first,bind,Except.bind]

theorem medianTimePast_congr {window : Nat} (same : SameBelow height blockAt blockAt') :
    medianTimePast window blockAt height = medianTimePast window blockAt' height := by
  unfold medianTimePast
  by_cases early : height = 0 ∨ window = 0
  · simp only [early,if_true]
  · simp only [early,if_false]
    congr 1
    apply mapM_same
    intro i member
    have below : i < height := by
      have := List.mem_range'_1.mp member
      omega
    have timing := same i below
    rcases h : blockAt i with e | b <;> rcases h' : blockAt' i with e' | b' <;>
      simp_all [Except.map,Block.timing]

theorem timestampIsValid_congr {now : UInt64} {block : Block} (same : SameBelow height blockAt blockAt') :
    timestampIsValid params blockAt now block height = timestampIsValid params blockAt' now block height := by
  unfold timestampIsValid
  rw [medianTimePast_congr same]

/-- The contextual rules raise on no view that has the blocks below the height. -/
theorem nextDifficulty_total (P : Primitives) (params : ConsensusParams)
    (there : ∀ i < height, ∃ block, blockAt i = .ok block) :
    ∃ difficulty, nextDifficulty P params blockAt height = .ok difficulty := by
  unfold nextDifficulty
  by_cases early : params.retargetInterval < 2 ∨ height ≤ params.retargetInterval
  · simp only [early,if_true]
    exact ⟨_,rfl⟩
  · obtain ⟨parent,hp⟩ := there (height - 1) (by omega)
    obtain ⟨first,hf⟩ := there (height - params.retargetInterval) (by omega)
    simp only [early,if_false,hp,hf,bind,Except.bind]
    split <;> exact ⟨_,rfl⟩

theorem medianTimePast_total (window : Nat) (there : ∀ i < height, ∃ block, blockAt i = .ok block) :
    ∃ median, medianTimePast window blockAt height = .ok median := by
  unfold medianTimePast
  by_cases early : height = 0 ∨ window = 0
  · simp only [early,if_true]
    exact ⟨_,rfl⟩
  · simp only [early,if_false]
    obtain ⟨timestamps,read⟩ := mapM_total (fun i => (blockAt i).map Block.timestamp)
      (List.range' (if height > window then height - window else 0)
        (height - if height > window then height - window else 0)) (by
      intro i member
      have := List.mem_range'_1.mp member
      obtain ⟨block,hb⟩ := there i (by omega)
      exact ⟨block.timestamp,by rw [hb]; rfl⟩)
    rw [read]
    exact ⟨_,rfl⟩

theorem timestampIsValid_total (params : ConsensusParams) (now : UInt64) (block : Block)
    (there : ∀ i < height, ∃ block, blockAt i = .ok block) :
    ∃ valid, timestampIsValid params blockAt now block height = .ok valid := by
  unfold timestampIsValid
  obtain ⟨median,read⟩ := medianTimePast_total params.mtpWindow there
  split
  · exact ⟨_,rfl⟩
  · rw [read]
    exact ⟨_,rfl⟩

theorem mapM_forall₂ {α β : Type} {f : α → Except Exn β} {items : List α} {results : List β}
    (read : items.mapM f = .ok results) : List.Forall₂ (fun item result => f item = .ok result) items results := by
  induction items generalizing results with
  | nil =>
    obtain rfl := Except.ok.inj read
    exact .nil
  | cons item items ih =>
    rw [List.mapM_cons] at read
    rcases first : f item with e | result
    · rw [first] at read
      cases read
    · rcases later : items.mapM f with e | rest
      · rw [first,later] at read
        cases read
      · rw [first,later] at read
        obtain rfl := Except.ok.inj read
        exact .cons first (ih later)

theorem mapM_mem {α β : Type} {f : α → Except Exn β} {items : List α} {results : List β}
    (read : items.mapM f = .ok results) {result : β} (member : result ∈ results) :
    ∃ item ∈ items, f item = .ok result := by
  obtain ⟨i,inside,rfl⟩ := List.getElem_of_mem member
  obtain ⟨same,each⟩ := List.forall₂_iff_get.mp (mapM_forall₂ read)
  have below : i < items.length := same ▸ inside
  exact ⟨items[i],List.getElem_mem below,each i below inside⟩

/-- A time later than every block below a height is later than their median. -/
theorem medianTimePast_lt {window : Nat} {time median : UInt64} (positive : 0 < time)
    (later : ∀ i < height, ∀ block, blockAt i = .ok block → block.timestamp < time)
    (read : medianTimePast window blockAt height = .ok median) : median < time := by
  unfold medianTimePast at read
  split at read
  · obtain rfl := Except.ok.inj read
    exact positive
  · rcases stamps : (List.range' (if height > window then height - window else 0)
        (height - if height > window then height - window else 0)).mapM fun i => (blockAt i).map Block.timestamp with
      e | timestamps
    · simp only [stamps] at read
      cases read
    · simp only [stamps] at read
      obtain rfl := Except.ok.inj read
      rw [List.getD_eq_getElem?_getD]
      cases middle : (timestamps.insertionSort (· ≤ ·))[(timestamps.insertionSort (· ≤ ·)).length / 2]? with
      | none => exact positive
      | some stamp =>
        have member := List.mem_of_getElem? middle
        rw [List.mem_insertionSort] at member
        obtain ⟨i,inside,same⟩ := mapM_mem stamps member
        have below := List.mem_range'_1.mp inside
        rcases there : blockAt i with e | block
        · rw [there] at same
          cases same
        · rw [there] at same
          obtain rfl := Except.ok.inj same
          exact later i (by omega) block there

/-- A block with a valid timestamp is later than the median below it. -/
theorem median_lt_of_timestampIsValid {now : UInt64} {block : Block}
    (valid : timestampIsValid params blockAt now block height = .ok true) :
    ∃ median, medianTimePast params.mtpWindow blockAt height = .ok median ∧ median < block.timestamp := by
  unfold timestampIsValid at valid
  split at valid
  · cases valid
  · rcases read : medianTimePast params.mtpWindow blockAt height with e | median
    · rw [read] at valid
      cases valid
    · rw [read] at valid
      refine ⟨median,rfl,?_⟩
      simpa [bind,Except.bind] using valid

end
end ForgeChain
