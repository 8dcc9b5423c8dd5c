import ForgeChain.Placement
import ForgeChain.Samples

/-!
Chains of any length from the genesis block, as many as there are nonces. Their
blocks come at the target block time, so the difficulty stays what it is. The
digest of a header is its timestamp and its nonce behind a byte with seven
leading zeros: short enough to say, and it tells these blocks apart.
-/
namespace ForgeChain.LongChains
open Tally Blockchain BlockTree Samples

/-- The digest of a header with this timestamp and nonce. -/
def digest (timestamp : UInt64) (nonce : UInt32) : HashBytes :=
  ⟨1 :: List.replicate 19 0 ++ (le64 timestamp ++ le32 nonce),by simp⟩

/-- A digest is its own digest, which makes hashing twice hashing once. -/
def plain : Primitives where
  sha256 data :=
    if size : data.length = 32 then ⟨data,size⟩
    else digest (UInt64.ofNat (leNat ((data.drop 68).take 8))) (UInt32.ofNat (leNat ((data.drop 80).take 4)))
  oct2point _ := false
  digestVerify _ _ _ := false
  llroundLog2 _ _ := 0

/-- The block at a height above the genesis block; the nonce tells the chain. -/
def blockAbove (nonce : UInt32) (height : Nat) : Block where
  version := 1
  prevHash := if height = 0 then digest 0 0 else digest (UInt64.ofNat (10 * height)) nonce
  merkleRoot := .zero
  timestamp := UInt64.ofNat (10 * (height + 1))
  difficulty := 4
  nonce := nonce
  cumulativeWork := 0
  transactions := []
  hash := digest (UInt64.ofNat (10 * (height + 1))) nonce

def chain (nonce : UInt32) (length : Nat) : List Block := (List.range length).map (blockAbove nonce)

theorem digest_inj {timestamp timestamp' : UInt64} {nonce nonce' : UInt32}
    (same : digest timestamp nonce = digest timestamp' nonce') : timestamp = timestamp' ∧ nonce = nonce' := by
  have bytes := congrArg HashBytes.bytes same
  rw [digest,digest,List.append_cancel_left_eq] at bytes
  obtain ⟨times,nonces⟩ := List.append_inj bytes (by simp)
  exact ⟨le64_inj times,le32_inj nonces⟩

theorem leNat_le64 (x : UInt64) : leNat (le64 x) = x.toNat := by
  rw [le64,leNat_leBytes]
  exact Nat.mod_eq_of_lt x.toNat_lt

theorem leNat_le32 (x : UInt32) : leNat (le32 x) = x.toNat := by
  rw [le32,leNat_leBytes]
  exact Nat.mod_eq_of_lt x.toNat_lt

/-- The timestamp is the field behind the two hashes, the nonce the last one. -/
theorem computeHash_plain (block : Block) : block.computeHash plain = digest block.timestamp block.nonce := by
  obtain ⟨front,back,split,front_length⟩ : ∃ front back, block.serialize =
      front ++ (le64 block.timestamp ++ (le32 block.difficulty ++ (le32 block.nonce ++ back))) ∧ front.length = 68 := by
    refine ⟨le32 block.version ++ block.prevHash.bytes ++ block.merkleRoot.bytes,
      le32 (UInt32.ofNat block.transactions.length) ++ block.transactions.flatMap fun tx => sized tx.serialize,?_,?_⟩
    · simp only [Block.serialize,Block.serializeHeader,List.append_assoc]
    · simp [block.prevHash.size,block.merkleRoot.size]
  have long : block.serialize.length ≠ 32 := by
    rw [split]
    simp [front_length]
    omega
  have timestamp : (block.serialize.drop 68).take 8 = le64 block.timestamp := by
    rw [split,List.drop_left' front_length,List.take_left' (le64_length _)]
  have nonce : (block.serialize.drop 80).take 4 = le32 block.nonce := by
    have skip : block.serialize.drop 80 = (block.serialize.drop 68).drop 12 := by rw [List.drop_drop]
    rw [skip,split,List.drop_left' front_length,← List.append_assoc,List.drop_left' (by simp),
      List.take_left' (le32_length _)]
  have inner : plain.sha256 block.serialize = digest block.timestamp block.nonce := by
    simp only [plain,long,dite_false,timestamp,nonce,leNat_le64,leNat_le32,UInt64.ofNat_toNat,UInt32.ofNat_toNat]
  rw [Block.computeHash,Primitives.doubleSha256,inner]
  have size : (digest block.timestamp block.nonce).bytes.length = 32 := (digest block.timestamp block.nonce).size
  simp only [plain,size,dite_true]

theorem genesis_hash : (Block.genesis plain).hash = digest 0 0 := by
  rw [Block.genesis,Block.make]
  dsimp only
  rw [computeHash_plain]

theorem digest_meetsTarget (timestamp : UInt64) (nonce : UInt32) : meetsTarget (digest timestamp nonce) 4 = true := by
  have first : countZeros 1 8 0x80 0 = (7,true) := by decide
  simp [meetsTarget,digest,leadingZeros,first]

/-! ### The paths -/

section
variable {nonce nonce' : UInt32} {length length' : Nat}

theorem time_toNat {height : Nat} (low : height ≤ 10000) : (UInt64.ofNat (10 * height)).toNat = 10 * height := by
  rw [UInt64.toNat_ofNat']
  exact Nat.mod_eq_of_lt (by omega)

theorem chain_succ (nonce : UInt32) (length : Nat) :
    chain nonce (length + 1) = chain nonce length ++ [blockAbove nonce length] := by
  rw [chain,List.range_succ,List.map_append]
  rfl

@[simp] theorem chain_length (nonce : UInt32) (length : Nat) : (chain nonce length).length = length := by simp [chain]

theorem chain_getElem? {i : Nat} {block : Block} (there : (chain nonce length)[i]? = some block) :
    i < length ∧ block = blockAbove nonce i := by
  have inside := (List.getElem?_eq_some_iff.mp there).1
  rw [chain_length] at inside
  refine ⟨inside,?_⟩
  rw [chain,List.getElem?_map,List.getElem?_range inside] at there
  exact (Option.some.inj there).symm

theorem mem_chain {block : Block} (member : block ∈ chain nonce length) : ∃ i < length, block = blockAbove nonce i := by
  obtain ⟨i,inside,same⟩ := List.mem_map.mp member
  exact ⟨i,List.mem_range.mp inside,same.symm⟩

theorem chain_linked (nonce : UInt32) (length : Nat) : Linked (Block.genesis plain).hash (chain nonce length) := by
  induction length with
  | zero => trivial
  | succ length ih =>
    rw [chain_succ,linked_append]
    refine ⟨ih,?_,trivial⟩
    cases length with
    | zero => exact genesis_hash.symm
    | succ length =>
      rw [chain_succ,topHash_append]
      rfl

/-- Chains of one nonce are told apart from those of another. -/
theorem blockAbove_inj {i j : Nat} (low : i < 10000) (low' : j < 10000)
    (same : (blockAbove nonce i).hash = (blockAbove nonce' j).hash) : nonce = nonce' ∧ i = j := by
  obtain ⟨times,nonces⟩ := digest_inj same
  have := congrArg UInt64.toNat times
  rw [time_toNat (by omega),time_toNat (by omega)] at this
  exact ⟨nonces,by omega⟩

theorem chains_distinct (low : length ≤ 10000) (low' : length' ≤ 10000) :
    Distinct plain (chain nonce length ++ chain nonce' length') := by
  have above : ∀ block ∈ chain nonce length ++ chain nonce' length', ∃ n, ∃ i < 10000, block = blockAbove n i := by
    intro block member
    rcases List.mem_append.mp member with first | second
    · obtain ⟨i,inside,same⟩ := mem_chain first
      exact ⟨nonce,i,by omega,same⟩
    · obtain ⟨i,inside,same⟩ := mem_chain second
      exact ⟨nonce',i,by omega,same⟩
  constructor
  · intro one first other second same
    obtain ⟨n,i,low_i,rfl⟩ := above one first
    obtain ⟨n',j,low_j,rfl⟩ := above other second
    obtain ⟨rfl,rfl⟩ := blockAbove_inj low_i low_j same
    rfl
  · intro block member same
    obtain ⟨n,i,low_i,rfl⟩ := above block member
    rw [genesis_hash] at same
    have := congrArg UInt64.toNat (digest_inj same).1
    rw [time_toNat (by omega)] at this
    simp at this

theorem chains_apart (differ : nonce ≠ nonce') (low : length ≤ 10000) (low' : length' ≤ 10000) :
    ∀ block ∈ chain nonce length, block ∉ chain nonce' length' := by
  intro block first second
  obtain ⟨i,inside,rfl⟩ := mem_chain first
  obtain ⟨j,inside',same⟩ := mem_chain second
  exact differ (blockAbove_inj (by omega) (by omega) (congrArg Block.hash same)).1

theorem chain_work (nonce : UInt32) (length : Nat) : pathWork (chain nonce length) = 16 * length := by
  induction length with
  | zero => rfl
  | succ length ih =>
    have one : pathWork [blockAbove nonce length] = 16 := rfl
    rw [chain_succ,pathWork_append,ih,one]
    omega

/-! ### Every rule holds along them -/

/-- The clock long after the chains. -/
def late : Reading := ⟨100000,reading.walk⟩

theorem view_chain {j : Nat} {block : Block} (there : viewOf (Block.genesis plain :: chain nonce length) j = .ok block) :
    block.timestamp = UInt64.ofNat (10 * j) ∧ (0 < j → block.difficulty = 4) := by
  unfold viewOf at there
  cases found : (Block.genesis plain :: chain nonce length)[j]? with
  | none =>
    rw [found] at there
    cases there
  | some other =>
    rw [found] at there
    obtain rfl := Except.ok.inj there
    cases j with
    | zero =>
      obtain rfl := Option.some.inj found
      exact ⟨rfl,fun absurd => by omega⟩
    | succ j =>
      obtain ⟨-,rfl⟩ := chain_getElem? found
      exact ⟨rfl,fun _ => rfl⟩

theorem view_total (nonce : UInt32) {height : Nat} (low : height ≤ length) :
    ∀ j < height, ∃ block, viewOf (Block.genesis plain :: chain nonce length) j = .ok block := by
  intro j below
  have inside : j < (Block.genesis plain :: chain nonce length).length := by
    rw [List.length_cons,chain_length]
    omega
  exact ⟨_,by rw [viewOf,List.getElem?_eq_getElem inside]; rfl⟩

theorem chain_difficulty {i : Nat} (inside : i < length) :
    nextDifficulty plain testParams (viewOf (Block.genesis plain :: chain nonce length)) (i + 1) = .ok 4 := by
  unfold nextDifficulty
  by_cases early : testParams.retargetInterval < 2 ∨ i + 1 ≤ testParams.retargetInterval
  · simp only [early,if_true]
    rfl
  · have interval : testParams.retargetInterval = 20 := rfl
    have total := view_total nonce (show i + 1 ≤ length by omega)
    obtain ⟨parent,at_parent⟩ := total (i + 1 - 1) (by omega)
    obtain ⟨first,at_first⟩ := total (i + 1 - testParams.retargetInterval) (by omega)
    have same := (view_chain at_parent).2 (by omega)
    simp only [early,if_false,at_parent,at_first,bind,Except.bind]
    split
    · rw [same]
    · rw [same]
      unfold retarget
      simp only [plain]
      split <;> rfl

theorem chain_timestamp {i : Nat} (low : length ≤ 10000) (inside : i < length) :
    timestampIsValid testParams (viewOf (Block.genesis plain :: chain nonce length)) late.now (blockAbove nonce i) (i + 1) =
      .ok true := by
  have time : (blockAbove nonce i).timestamp.toNat = 10 * (i + 1) := time_toNat (by omega)
  have total := view_total nonce (show i + 1 ≤ length by omega)
  obtain ⟨median,read⟩ := medianTimePast_total testParams.mtpWindow total
  have earlier : median < (blockAbove nonce i).timestamp := by
    refine medianTimePast_lt ?_ ?_ read
    · rw [UInt64.lt_iff_toNat_lt,time]
      simp
    · intro j below block there
      rw [UInt64.lt_iff_toNat_lt,time,(view_chain there).1,time_toNat (by omega)]
      omega
  have past : ¬ (blockAbove nonce i).timestamp > late.now := by
    intro future
    have future := UInt64.lt_iff_toNat_lt.mp future
    rw [time] at future
    have : late.now.toNat = 100000 := rfl
    omega
  unfold timestampIsValid
  rw [if_neg fun both => past both.1,read]
  simp [bind,Except.bind,UInt64.not_le.mpr earlier]

theorem chain_valid (low : length ≤ 10000) : ValidPath plain testParams late.now (chain nonce length) := by
  have empty : transactionsOf (chain nonce length) = [] := by
    simp [transactionsOf,chain,blockAbove]
  refine ⟨?_,?_,by simp [empty],by rw [empty]; trivial⟩
  · intro block member
    obtain ⟨i,inside,rfl⟩ := mem_chain member
    refine ⟨digest_meetsTarget _ _,rfl,?_,by simp [blockAbove]⟩
    rw [computeHash_plain]
    rfl
  · intro i block there
    obtain ⟨inside,rfl⟩ := chain_getElem? there
    exact ⟨chain_timestamp low inside,chain_difficulty inside⟩

end
end ForgeChain.LongChains
