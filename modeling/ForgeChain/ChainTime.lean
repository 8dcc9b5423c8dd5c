import ForgeChain.Ranks
import ForgeChain.Samples

/-!
The time of a chain, which is the median of the timestamps in a window below a
height. A block is later than the median below it, so the median never falls,
and once half a window of blocks has come in it has grown
(`median_never_falls`). The timestamps themselves may fall.
-/
namespace ForgeChain.ChainTime
open Ranks Samples

/-- The block at a height is later than the median below it. -/
def laterThanMedian (window : Nat) (chain : Blockchain) (height : Nat) : Bool :=
  match chain.blockAt height, medianTimePast window chain.blockAt height with
  | .ok block, .ok median => median < block.timestamp
  | _, _ => false

/-- Every block above the first is later than the median below it. -/
def Timely (window : Nat) (chain : Blockchain) : Prop :=
  ∀ height < chain.size, 1 ≤ height → laterThanMedian window chain height = true

instance (window : Nat) (chain : Blockchain) : Decidable (Timely window chain) :=
  inferInstanceAs (Decidable (∀ height < chain.size, _))

/-- The timestamps in the window below a height. -/
def stamps (window : Nat) (chain : Blockchain) (height : Nat) : List UInt64 :=
  ((chain.blocks.take height).drop (height - window)).map Block.timestamp

section
variable {window height : Nat} {chain : Blockchain} {median : UInt64}

/-! ### The window -/

theorem mapM_timestamps {start len : Nat} (inside : start + len ≤ chain.size) :
    (List.range' start len).mapM (fun i => (chain.blockAt i).map Block.timestamp) =
      .ok (((chain.blocks.take (start + len)).drop start).map Block.timestamp) := by
  induction len generalizing start with
  | zero =>
    rw [Nat.add_zero,List.drop_eq_nil_of_le (by simp)]
    rfl
  | succ len ih =>
    have here : start < (chain.blocks.take (start + (len + 1))).length := by
      rw [List.length_take]
      unfold Blockchain.size at inside
      omega
    have read : chain.blockAt start = .ok (chain.blocks.take (start + (len + 1)))[start] := by
      rw [Blockchain.blockAt_eq_ok,List.getElem_take]
      exact List.getElem?_eq_getElem _
    rw [List.range'_succ,List.mapM_cons,ih (by omega),read,List.drop_eq_getElem_cons here,
      Nat.add_right_comm start 1 len]
    rfl

theorem length_stamps (inside : height ≤ chain.size) : (stamps window chain height).length = min height window := by
  unfold Blockchain.size at inside
  rw [stamps,List.length_map,List.length_drop,List.length_take]
  omega

/-- Moving the window up by a block takes that block in and, once the window is
    full, lets the oldest one go. -/
theorem stamps_succ {block : Block} (positive : 1 ≤ window) (there : chain.blocks[height]? = some block) :
    stamps window chain (height + 1) =
      (if height < window then stamps window chain height else (stamps window chain height).drop 1) ++
        [block.timestamp] := by
  have inside := (List.getElem?_eq_some_iff.mp there).1
  have split : chain.blocks.take (height + 1) = chain.blocks.take height ++ [block] := by
    rw [List.take_add_one,there]
    rfl
  rw [stamps,split,List.drop_append_of_le_length (by rw [List.length_take]; omega),List.map_append]
  congr 1
  split
  · rw [stamps,Nat.sub_eq_zero_of_le (by omega : height + 1 ≤ window),
      Nat.sub_eq_zero_of_le (by omega : height ≤ window)]
  · rw [stamps,← List.map_drop,List.drop_drop,Nat.sub_add_comm (by omega : window ≤ height)]

/-- The newest blocks are in the window as far as it reaches. -/
theorem newest_sublist (chain : Blockchain) (height : Nat) {len : Nat} (short : len ≤ window) :
    (((chain.blocks.take (height + len)).drop height).map Block.timestamp).Sublist
      (stamps window chain (height + len)) := by
  have parts : (chain.blocks.take (height + len)).drop height =
      ((chain.blocks.take (height + len)).drop (height + len - window)).drop (height - (height + len - window)) := by
    rw [List.drop_drop,Nat.add_sub_cancel' (by omega)]
  rw [stamps,parts]
  exact (List.drop_sublist _ _).map _

/-! ### The median -/

/-- The median is in an upper part of the order exactly where half of the window
    is, counting the middle one in. -/
theorem medianTimePast_upper (positive : 1 ≤ window) (above : 1 ≤ height) (inside : height ≤ chain.size) :
    ∃ median, medianTimePast window chain.blockAt height = .ok median ∧
      ∀ upper : UInt64 → Bool, Upper (· ≤ ·) upper →
        (upper median = true ↔
          min height window - min height window / 2 ≤ (stamps window chain height).countP upper) := by
  have start : (if height > window then height - window else 0) = height - window := by
    split <;> omega
  have read : (List.range' (height - window) (height - (height - window))).mapM
      (fun i => (chain.blockAt i).map Block.timestamp) = .ok (stamps window chain height) := by
    rw [mapM_timestamps (by omega),Nat.add_sub_cancel' (Nat.sub_le height window),stamps]
  have length : (stamps window chain height).length = min height window := length_stamps inside
  have middle : min height window / 2 < ((stamps window chain height).insertionSort (· ≤ ·)).length := by
    rw [List.length_insertionSort,length]
    omega
  refine ⟨((stamps window chain height).insertionSort (· ≤ ·))[min height window / 2],?_,fun upper closed => ?_⟩
  · unfold medianTimePast
    rw [if_neg (by omega),start]
    dsimp only
    rw [read]
    simp only [bind,Except.bind,List.length_insertionSort,length,List.getD_eq_getElem?_getD,
      List.getElem?_eq_getElem middle,Option.getD_some]
  · rw [closed.sorted_iff middle,length]

theorem upper_le (median : UInt64) : Upper (· ≤ ·) fun time : UInt64 => decide (median ≤ time) := by
  intro low high less upper
  exact decide_eq_true (UInt64.le_trans (of_decide_eq_true upper) less)

theorem upper_lt (median : UInt64) : Upper (· ≤ ·) fun time : UInt64 => decide (median < time) := by
  intro low high less upper
  exact decide_eq_true (UInt64.lt_of_lt_of_le (of_decide_eq_true upper) less)

theorem Timely.later (timely : Timely window chain) (above : 1 ≤ height) {block : Block}
    (there : chain.blocks[height]? = some block) (read : medianTimePast window chain.blockAt height = .ok median) :
    median < block.timestamp := by
  have inside := (List.getElem?_eq_some_iff.mp there).1
  have late := timely height inside above
  rw [laterThanMedian,Blockchain.blockAt_eq_ok.mpr there,read] at late
  exact of_decide_eq_true late

/-! ### The median along a chain -/

theorem countP_drop_one (upper : UInt64 → Bool) (times : List UInt64) :
    times.countP upper ≤ (times.drop 1).countP upper + 1 := by
  cases times with
  | nil => simp
  | cons time rest =>
    rw [List.countP_cons,List.drop_one,List.tail_cons]
    split <;> omega

/-- A block later than the median leaves it where it is or moves it up. -/
theorem median_step (positive : 1 ≤ window) (timely : Timely window chain) (above : 1 ≤ height)
    (inside : height + 1 ≤ chain.size) :
    ∃ median next, medianTimePast window chain.blockAt height = .ok median ∧
      medianTimePast window chain.blockAt (height + 1) = .ok next ∧ median ≤ next := by
  obtain ⟨median,read,counted⟩ := medianTimePast_upper positive above (by omega : height ≤ chain.size)
  obtain ⟨next,read',counted'⟩ := medianTimePast_upper positive (Nat.le_add_left 1 height) inside
  refine ⟨median,next,read,read',?_⟩
  have there : chain.blocks[height]? = some chain.blocks[height] := List.getElem?_eq_getElem inside
  have late := timely.later above there read
  have half := (counted _ (upper_le median)).mp (decide_eq_true (UInt64.le_refl median))
  refine of_decide_eq_true ((counted' _ (upper_le median)).mpr ?_)
  -- The new block counts, and at most one that counted has left the window.
  have new : [chain.blocks[height].timestamp].countP (fun time => decide (median ≤ time)) = 1 := by
    rw [List.countP_singleton,if_pos (decide_eq_true (UInt64.le_of_lt late))]
  rw [stamps_succ positive there,List.countP_append,new]
  split
  · omega
  · have one := countP_drop_one (fun time => decide (median ≤ time)) (stamps window chain height)
    omega

theorem median_run (positive : 1 ≤ window) (timely : Timely window chain) (above : 1 ≤ height) (len : Nat)
    (inside : height + len ≤ chain.size) :
    ∃ median later, medianTimePast window chain.blockAt height = .ok median ∧
      medianTimePast window chain.blockAt (height + len) = .ok later ∧ median ≤ later := by
  induction len with
  | zero =>
    obtain ⟨median,read,-⟩ := medianTimePast_upper positive above inside
    exact ⟨median,median,read,read,UInt64.le_refl median⟩
  | succ len ih =>
    obtain ⟨median,later,read,read',grown⟩ := ih (by omega)
    obtain ⟨same,next,read'',last,step⟩ := median_step positive timely (by omega : 1 ≤ height + len) inside
    obtain rfl := Except.ok.inj (read'.symm.trans read'')
    exact ⟨median,next,read,last,UInt64.le_trans grown step⟩

/-- Every block from a height on is later than the median below that height. -/
theorem later_than_median (positive : 1 ≤ window) (timely : Timely window chain) (above : 1 ≤ height)
    (read : medianTimePast window chain.blockAt height = .ok median) {i : Nat} {block : Block} (higher : height ≤ i)
    (there : chain.blocks[i]? = some block) : median < block.timestamp := by
  obtain ⟨len,rfl⟩ := Nat.exists_eq_add_of_le higher
  have inside : height + len < chain.size := (List.getElem?_eq_some_iff.mp there).1
  obtain ⟨same,later,read',read'',grown⟩ := median_run positive timely above len (by omega)
  obtain rfl := Except.ok.inj (read.symm.trans read')
  exact UInt64.lt_of_le_of_lt grown (timely.later (by omega) there read'')

/-- Half a window of blocks moves the median up. -/
theorem median_grows (positive : 1 ≤ window) (timely : Timely window chain) (above : 1 ≤ height)
    (inside : height + (window + 1) / 2 ≤ chain.size) :
    ∃ median later, medianTimePast window chain.blockAt height = .ok median ∧
      medianTimePast window chain.blockAt (height + (window + 1) / 2) = .ok later ∧ median < later := by
  obtain ⟨median,read,-⟩ := medianTimePast_upper positive above (by omega : height ≤ chain.size)
  obtain ⟨later,read',counted⟩ := medianTimePast_upper positive (by omega : 1 ≤ height + (window + 1) / 2) inside
  refine ⟨median,later,read,read',of_decide_eq_true ((counted _ (upper_lt median)).mpr ?_)⟩
  have newest := (newest_sublist chain height (by omega : (window + 1) / 2 ≤ window)).countP_le
    (p := fun time => decide (median < time))
  have all : ∀ time ∈ ((chain.blocks.take (height + (window + 1) / 2)).drop height).map Block.timestamp,
      decide (median < time) = true := by
    intro time member
    obtain ⟨block,among,rfl⟩ := List.mem_map.mp member
    obtain ⟨i,there⟩ := List.mem_iff_getElem?.mp among
    rw [List.getElem?_drop,List.getElem?_take] at there
    split at there
    · exact decide_eq_true (later_than_median positive timely above read (Nat.le_add_right height i) there)
    · cases there
  rw [List.countP_eq_length.mpr all,List.length_map,List.length_drop,List.length_take] at newest
  unfold Blockchain.size at inside
  omega

end

/-- A chain of blocks with given timestamps on top of genesis. -/
def timed (times : List UInt64) : Blockchain :=
  times.foldl (fun chain time => chain.addBlock { plainA with timestamp := time, hash := ofNat time.toNat })
    (.new sample)

/-- Where every block is later than the median below it, the median of a chain
    never falls, and it grows within half a window. The timestamps may fall. -/
theorem median_never_falls :
    (∀ (window : Nat) (chain : Blockchain), 1 ≤ window → Timely window chain → ∀ height, 1 ≤ height →
      (height + 1 ≤ chain.size →
        ∃ median next, medianTimePast window chain.blockAt height = .ok median ∧
          medianTimePast window chain.blockAt (height + 1) = .ok next ∧ median ≤ next) ∧
      (height + (window + 1) / 2 ≤ chain.size →
        ∃ median later, medianTimePast window chain.blockAt height = .ok median ∧
          medianTimePast window chain.blockAt (height + (window + 1) / 2) = .ok later ∧ median < later)) ∧
    ∃ window chain, 1 ≤ window ∧ Timely window chain ∧
      ∃ (height : Nat) (earlier later : Block), chain.blocks[height]? = some earlier ∧
        chain.blocks[height + 1]? = some later ∧ later.timestamp < earlier.timestamp := by
  refine ⟨fun window chain positive timely height above => ⟨fun inside => ?_,fun inside => ?_⟩,?_⟩
  · exact median_step positive timely above inside
  · exact median_grows positive timely above inside
  · refine ⟨3,timed [10,20,11],by decide,by decide +kernel,2,?_⟩
    exact ⟨_,_,rfl,rfl,by decide +kernel⟩

/-- The median below height 2 is 10, as is that below height 3; with a block
    earlier than its parent it is 11. -/
theorem median_never_falls_decreasing :
    Timely 3 (timed [10,20,11]) ∧
      ∃ median later, medianTimePast 3 (timed [10,20,11]).blockAt 2 = .ok median ∧
        medianTimePast 3 (timed [10,20,11]).blockAt 4 = .ok later ∧ median < later := by
  have timely : Timely 3 (timed [10,20,11]) := by decide +kernel
  exact ⟨timely,(median_never_falls.1 3 (timed [10,20,11]) (by decide) timely 2 (by decide)).2 (by decide +kernel)⟩

end ForgeChain.ChainTime
