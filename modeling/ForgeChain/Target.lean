import ForgeChain.Consensus
import Mathlib.Data.Nat.Size
import Mathlib.Data.Set.Card

/-!
What a difficulty asks of a hash. `meets_target` counts the zero bits before the
first one, byte by byte; read as a number with its highest byte first, the hash
has as many bits as are left (`leadingZeros_size`). So a hash meets a difficulty
if it is a number below a power of two, and of all hashes one in
`2 ^ difficulty` does, which is the work that a block stands for
(`meetsTarget_numeric`).
-/
namespace ForgeChain.Target

/-- The number that bytes stand for, highest first. -/
def beNat : Bytes → Nat
  | [] => 0
  | byte :: rest => byte.toNat * 2 ^ (8 * rest.length) + beNat rest

theorem beNat_lt : ∀ bytes : Bytes, beNat bytes < 2 ^ (8 * bytes.length)
  | [] => by decide
  | byte :: rest => by
    have high := byte.toNat_lt
    have low := beNat_lt rest
    have split : 2 ^ (8 * (rest.length + 1)) = 256 * 2 ^ (8 * rest.length) := by
      rw [Nat.mul_add,Nat.pow_add,Nat.mul_comm]
    rw [beNat,List.length_cons,split]
    calc byte.toNat * 2 ^ (8 * rest.length) + beNat rest
        < byte.toNat * 2 ^ (8 * rest.length) + 2 ^ (8 * rest.length) := Nat.add_lt_add_left low _
      _ = (byte.toNat + 1) * 2 ^ (8 * rest.length) := (Nat.succ_mul _ _).symm
      _ ≤ 256 * 2 ^ (8 * rest.length) := Nat.mul_le_mul_right _ (by omega)

/-! ### The bits of a number -/

/-- A number in front of `k` bits has that many bits more. -/
theorem size_front {high low k : Nat} (positive : 0 < high) (small : low < 2 ^ k) :
    (high * 2 ^ k + low).size = high.size + k := by
  refine le_antisymm (Nat.size_le.mpr ?_) ?_
  · have below : high + 1 ≤ 2 ^ high.size := Nat.lt_size_self high
    calc high * 2 ^ k + low
        < high * 2 ^ k + 2 ^ k := Nat.add_lt_add_left small _
      _ = (high + 1) * 2 ^ k := (Nat.succ_mul _ _).symm
      _ ≤ 2 ^ high.size * 2 ^ k := Nat.mul_le_mul_right _ below
      _ = 2 ^ (high.size + k) := (Nat.pow_add 2 high.size k).symm
  · obtain ⟨bits,size⟩ := Nat.exists_eq_succ_of_ne_zero (Nat.size_pos.mpr positive).ne'
    have top : 2 ^ bits ≤ high := Nat.lt_size.mp (by omega)
    have : bits + k < (high * 2 ^ k + low).size := by
      refine Nat.lt_size.mpr ?_
      calc 2 ^ (bits + k) = 2 ^ bits * 2 ^ k := Nat.pow_add 2 bits k
        _ ≤ high * 2 ^ k := Nat.mul_le_mul_right _ top
        _ ≤ high * 2 ^ k + low := Nat.le_add_right _ _
    omega

/-! ### Counting -/

theorem countZeros_eq (byte : UInt8) (left : Nat) (mask : UInt8) (result : UInt32) :
    countZeros byte left mask result =
      (result + (countZeros byte left mask 0).1,(countZeros byte left mask 0).2) := by
  induction left generalizing mask result with
  | zero => simp [countZeros]
  | succ left ih =>
    rw [countZeros,countZeros]
    split
    · rw [ih (mask >>> 1) (result + 1),ih (mask >>> 1) (0 + 1),UInt32.zero_add,UInt32.add_assoc]
    · simp

/-- The zeros before the first one of a byte are what its bits leave of eight. -/
theorem countZeros_byte (byte : UInt8) :
    (countZeros byte 8 0x80 0).1.toNat + byte.toNat.size = 8 ∧
      ((countZeros byte 8 0x80 0).2 = true ↔ 0 < byte.toNat) := by
  have all : ∀ n < 256, (countZeros (UInt8.ofNat n) 8 0x80 0).1.toNat + n.size = 8 ∧
      ((countZeros (UInt8.ofNat n) 8 0x80 0).2 = true ↔ 0 < n) := by
    decide +kernel
  have own := all byte.toNat byte.toNat_lt
  rwa [UInt8.ofNat_toNat] at own

/-- The zero bits before the first one are those that the bits of the number
    leave. -/
theorem leadingZeros_size {bytes : Bytes} {result : UInt32} (room : result.toNat + 8 * bytes.length < 2 ^ 32) :
    (leadingZeros bytes result).toNat + (beNat bytes).size = result.toNat + 8 * bytes.length := by
  induction bytes generalizing result with
  | nil => simp [leadingZeros,beNat]
  | cons byte rest ih =>
    obtain ⟨zeros,one⟩ := countZeros_byte byte
    rw [List.length_cons] at room ⊢
    have sum : (result + (countZeros byte 8 0x80 0).1).toNat =
        result.toNat + (countZeros byte 8 0x80 0).1.toNat := by
      rw [UInt32.toNat_add,Nat.mod_eq_of_lt (by omega)]
    rw [leadingZeros,countZeros_eq]
    cases flag : (countZeros byte 8 0x80 0).2 with
    | true =>
      dsimp only
      rw [sum,beNat,size_front (one.mp flag) (beNat_lt rest)]
      omega
    | false =>
      have zero : byte.toNat = 0 := by
        by_contra positive
        rw [one.mpr (Nat.pos_of_ne_zero positive)] at flag
        cases flag
      rw [zero,Nat.size_zero,Nat.add_zero] at zeros
      dsimp only
      have later := ih (by omega : (result + (countZeros byte 8 0x80 0).1).toNat + 8 * rest.length < 2 ^ 32)
      rw [beNat,zero,Nat.zero_mul,Nat.zero_add,later,sum,zeros]
      omega

theorem meetsTarget_below (hash : HashBytes) (difficulty : UInt32) :
    meetsTarget hash difficulty = true ↔
      difficulty.toNat ≤ 256 ∧ beNat hash.bytes < 2 ^ (256 - difficulty.toNat) := by
  have count := leadingZeros_size (by rw [hash.size]; decide : (0 : UInt32).toNat + 8 * hash.bytes.length < 2 ^ 32)
  rw [hash.size,UInt32.toNat_zero] at count
  rw [meetsTarget,decide_eq_true_iff,ge_iff_le,UInt32.le_iff_toNat_le,← Nat.size_le]
  omega

/-! ### How many hashes there are -/

theorem leNat_concat (byte : UInt8) : ∀ bytes : Bytes,
    leNat (bytes ++ [byte]) = byte.toNat * 2 ^ (8 * bytes.length) + leNat bytes
  | [] => by simp [leNat]
  | first :: rest => by
    have shift : 2 ^ (8 * (rest.length + 1)) = 256 * 2 ^ (8 * rest.length) := by
      rw [Nat.mul_add,Nat.pow_add,Nat.mul_comm]
    rw [List.cons_append,leNat,leNat_concat byte rest,leNat,List.length_cons,shift]
    ring

/-- Highest byte first is lowest byte first from behind. -/
theorem beNat_eq : ∀ bytes : Bytes, beNat bytes = leNat bytes.reverse
  | [] => rfl
  | byte :: rest => by rw [beNat,List.reverse_cons,leNat_concat,List.length_reverse,beNat_eq rest]

/-- The hash that reads as a number. -/
def ofNumber (n : Nat) : HashBytes := ⟨(leBytes 32 n).reverse,by simp⟩

theorem beNat_ofNumber {n : Nat} (small : n < 2 ^ 256) : beNat (ofNumber n).bytes = n := by
  rw [ofNumber,beNat_eq,List.reverse_reverse,leNat_leBytes]
  exact Nat.mod_eq_of_lt small

theorem ofNumber_beNat (hash : HashBytes) : ofNumber (beNat hash.bytes) = hash := by
  have bytes := leBytes_leNat hash.bytes.reverse
  rw [List.length_reverse,hash.size] at bytes
  ext1
  show (leBytes 32 (beNat hash.bytes)).reverse = hash.bytes
  rw [beNat_eq,bytes,List.reverse_reverse]

/-- As many hashes meet a difficulty as there are numbers below its bound. -/
theorem ncard_solutions {difficulty : UInt32} (possible : difficulty.toNat ≤ 256) :
    { hash | meetsTarget hash difficulty = true }.ncard = 2 ^ (256 - difficulty.toNat) := by
  have small : ∀ n < 2 ^ (256 - difficulty.toNat), n < 2 ^ 256 := fun n below =>
    below.trans_le (Nat.pow_le_pow_right (by omega) (Nat.sub_le _ _))
  refine Set.ncard_eq_of_bijective (fun n _ => ofNumber n) (fun hash meets => ?_) (fun n below => ?_)
    fun i j low low' same => ?_
  · exact ⟨beNat hash.bytes,((meetsTarget_below hash difficulty).mp meets).2,ofNumber_beNat hash⟩
  · refine (meetsTarget_below _ _).mpr ⟨possible,?_⟩
    rwa [beNat_ofNumber (small n below)]
  · rw [← beNat_ofNumber (small i low),← beNat_ofNumber (small j low'),same]

/-- A hash meets a difficulty if that is at most 256 and the hash, read with its
    highest byte first, is below the power of two that many bits down. So the work
    of a block, times the hashes that solve it, are all hashes, up to the
    difficulties whose work is saturated. -/
theorem meetsTarget_numeric :
    (∀ (hash : HashBytes) (difficulty : UInt32), meetsTarget hash difficulty = true ↔
      difficulty.toNat ≤ 256 ∧ beNat hash.bytes < 2 ^ (256 - difficulty.toNat)) ∧
    ∀ block : Block, block.difficulty.toNat < 64 →
      block.blockWork.toNat * { hash | meetsTarget hash block.difficulty = true }.ncard = 2 ^ 256 := by
  refine ⟨meetsTarget_below,fun block low => ?_⟩
  rw [Block.blockWork_toNat low,ncard_solutions (by omega),← Nat.pow_add]
  congr 1
  omega

/-- The hash with only the lowest bit of its first byte set has seven zeros; four
    zeros are sixteen tries. -/
theorem meetsTarget_numeric_seven :
    let block : Block := ⟨1,.zero,.zero,0,4,0,0,[],.zero⟩
    meetsTarget (ofNumber (2 ^ 248)) 7 = true ∧ meetsTarget (ofNumber (2 ^ 248)) 8 = false ∧
      block.blockWork = 16 ∧ 16 * { hash | meetsTarget hash block.difficulty = true }.ncard = 2 ^ 256 := by
  intro block
  have reads : beNat (ofNumber (2 ^ 248)).bytes = 2 ^ 248 := beNat_ofNumber (by decide)
  refine ⟨(meetsTarget_numeric.1 _ _).mpr ⟨by decide,?_⟩,Bool.eq_false_iff.mpr fun meets => ?_,by decide,
    meetsTarget_numeric.2 block (by decide)⟩
  · rw [reads]
    decide
  · have below := ((meetsTarget_numeric.1 _ _).mp meets).2
    rw [reads] at below
    exact absurd below (by decide)

end ForgeChain.Target
