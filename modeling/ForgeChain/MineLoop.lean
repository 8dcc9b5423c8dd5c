import ForgeChain.Loops
import ForgeChain.Mining

/-!
The search for a nonce that can be cancelled, round by round as the source has
it (`mine_block` in `src/consensus/ProofOfWork.cpp`). It ends after a fixed number of
rounds, finds the first solution in the order of timestamps and nonces, and
gives up only when it is told to or when there is no solution
(`mineBlock_exhaustive`). The blocks of `mineBlock` are those of this loop
(`mineBlock_is_loop`).
-/
namespace ForgeChain.MineLoop
open Loops Mining

/-- What the loop keeps from round to round; `asked` counts the calls of
    `should_stop`. -/
structure Progress where
  block : Block
  nonce : UInt32
  timestampBumps : UInt32
  asked : Nat
  deriving DecidableEq

section
variable (P : Primitives) (shouldStop : Option (Nat → Bool))

/-- `should_stop` is called in this round; the function may be empty. -/
abbrev Progress.Asks (s : Progress) : Prop := s.nonce % kCancelCheckInterval = 0 ∧ shouldStop.isSome

/-- The call of the round is told to stop. What `should_stop` answers may depend
    on how often it was called. -/
abbrev Progress.Told (s : Progress) : Prop := s.Asks shouldStop ∧ shouldStop.any (· s.asked)

/-- The calls up to the end of the round. -/
def Progress.calls (s : Progress) : Nat := if s.Asks shouldStop then s.asked + 1 else s.asked

/-- A round of the loop. -/
def mineRound (s : Progress) : Progress ⊕ Option Block × Nat :=
  let asked := s.calls shouldStop
  if s.Told shouldStop then .inr (none,asked)
  else
    let block := { s.block with nonce := s.nonce }
    let hash := block.computeHash P
    if meetsTarget hash block.difficulty then .inr (some { block with hash },asked)
    else
      let nonce := s.nonce + 1
      if nonce = kMaxNonce then
        if s.timestampBumps = kMaxTimestampBumps then .inr (none,asked)
        else .inl ⟨{ block with timestamp := block.timestamp + 1 },0,s.timestampBumps + 1,asked⟩
      else .inl ⟨block,nonce,s.timestampBumps,asked⟩

/-- The block before the search. -/
def unmined (version : UInt32) (prevHash : HashBytes) (timestamp : UInt64) (difficulty : UInt32)
    (transactions : List Transaction) : Block :=
  { Block.make P version prevHash timestamp transactions with difficulty }

/-- `mine_block` with a function to stop it, for a number of rounds. -/
def mineLoop (rounds : Nat) (version : UInt32) (prevHash : HashBytes) (timestamp : UInt64) (difficulty : UInt32)
    (transactions : List Transaction) : Option (Option Block × Nat) :=
  loop (mineRound P shouldStop) rounds ⟨unmined P version prevHash timestamp difficulty transactions,0,0,0⟩

variable {P} {block : Block}

/-! ### The loop over timestamps and nonces, from its middle -/

/-- What is left of `tryTimestamps` with some nonces to go for a timestamp and
    some bumps to go after it. -/
def goOn (P : Primitives) (stop : Nat → UInt32 → Bool) (block : Block) (nonces bumps : Nat) : Option Block :=
  match tryNonces P (stop bumps) block nonces with
  | .found block => some block
  | .stopped => none
  | .exhausted =>
    match bumps with
    | 0 => none
    | left+1 => tryTimestamps P stop { block with timestamp := block.timestamp + 1 } left

variable {stop : Nat → UInt32 → Bool}

theorem tryTimestamps_eq (bumps : Nat) :
    tryTimestamps P stop block bumps = goOn P stop block kMaxNonce.toNat bumps := by
  cases bumps with
  | zero =>
    unfold tryTimestamps goOn
    cases tryNonces P (stop 0) block kMaxNonce.toNat <;> rfl
  | succ left =>
    unfold tryTimestamps goOn
    cases tryNonces P (stop (left + 1)) block kMaxNonce.toNat <;> rfl

/-- The nonce of the block is overwritten before it is read. -/
theorem tryNonces_nonce (stop : UInt32 → Bool) (nonce : UInt32) (left : Nat) :
    tryNonces P stop { block with nonce } left = tryNonces P stop block left := by
  cases left <;> rfl

theorem toNat_kMaxNonce : kMaxNonce.toNat = 2 ^ 32 - 1 := by decide

theorem tryNonces_succ {stop : UInt32 → Bool} {nonce : UInt32} {left : Nat}
    (tried : kMaxNonce - UInt32.ofNat (left + 1) = nonce) :
    tryNonces P stop block (left + 1) =
      if nonce % kCancelCheckInterval = 0 ∧ stop nonce then .stopped
      else if meetsTarget ({ block with nonce }.computeHash P) block.difficulty then
        .found { block with nonce, hash := { block with nonce }.computeHash P }
      else tryNonces P stop block left := by
  subst tried
  simp only [tryNonces,tryNonces_nonce]

/-- One nonce of it. -/
theorem goOn_nonce {nonce : UInt32} (inside : nonce < kMaxNonce) (bumps : Nat) :
    goOn P stop block (kMaxNonce.toNat - nonce.toNat) bumps =
      if nonce % kCancelCheckInterval = 0 ∧ stop bumps nonce then none
      else if meetsTarget ({ block with nonce }.computeHash P) block.difficulty then
        some { block with nonce, hash := { block with nonce }.computeHash P }
      else goOn P stop block (kMaxNonce.toNat - (nonce.toNat + 1)) bumps := by
  have below : nonce.toNat < kMaxNonce.toNat := UInt32.lt_iff_toNat_lt.mp inside
  obtain ⟨left,split⟩ := Nat.exists_eq_add_of_lt below
  have now : kMaxNonce.toNat - nonce.toNat = left + 1 := by omega
  have later : kMaxNonce.toNat - (nonce.toNat + 1) = left := by omega
  have tried : kMaxNonce - UInt32.ofNat (left + 1) = nonce := by
    apply UInt32.toNat_inj.mp
    rw [UInt32.toNat_sub,UInt32.toNat_ofNat']
    rw [toNat_kMaxNonce] at *
    omega
  rw [now,later,goOn.eq_def,goOn.eq_def,tryNonces_succ tried]
  split_ifs <;> rfl

/-! ### The rounds -/

/-- The block that is tried after some bumps, with a nonce. -/
def candidate (block : Block) (bumps : Nat) (nonce : UInt32) : Block :=
  { block with timestamp := block.timestamp + UInt64.ofNat bumps, nonce }

/-- It solves the search. -/
def Hits (P : Primitives) (block : Block) (bumps : Nat) (nonce : UInt32) : Prop :=
  meetsTarget ((candidate block bumps nonce).computeHash P) block.difficulty = true

/-- A timestamp has a whole number of calls of `should_stop`, so that the
    answer at a nonce is known from the bumps left. -/
def answerAt (shouldStop : Option (Nat → Bool)) (left : Nat) (nonce : UInt32) : Bool :=
  shouldStop.any (· ((kMaxTimestampBumps.toNat - left) * 65537 + nonce.toNat / 65535))

/-- The start of a round: all candidates before its own one have failed. -/
structure Searching (P : Primitives) (shouldStop : Option (Nat → Bool)) (block : Block) (round : Nat) (s : Progress) :
    Prop where
  position : round = s.timestampBumps.toNat * kMaxNonce.toNat + s.nonce.toNat
  bumped : s.timestampBumps.toNat ≤ kMaxTimestampBumps.toNat
  inside : s.nonce < kMaxNonce
  own : ∃ old, s.block = candidate block s.timestampBumps.toNat old
  missed : ∀ bumps nonce, bumps < s.timestampBumps.toNat ∨ bumps = s.timestampBumps.toNat ∧ nonce < s.nonce →
    nonce < kMaxNonce → ¬Hits P block bumps nonce
  calls : shouldStop.isSome → s.asked = s.timestampBumps.toNat * 65537 + (s.nonce.toNat + 65534) / 65535
  rest : tryTimestamps P (answerAt shouldStop) block kMaxTimestampBumps.toNat =
    goOn P (answerAt shouldStop) (candidate block s.timestampBumps.toNat block.nonce)
      (kMaxNonce.toNat - s.nonce.toNat) (kMaxTimestampBumps.toNat - s.timestampBumps.toNat)

/-- How a search may end: with the first hit, or with none when it was told to
    stop or there is no hit. -/
structure Ends (P : Primitives) (shouldStop : Option (Nat → Bool)) (block : Block) (result : Option Block)
    (asked : Nat) : Prop where
  first : ∀ solved, result = some solved → ∃ bumps ≤ kMaxTimestampBumps.toNat, ∃ nonce < kMaxNonce,
    solved = { candidate block bumps nonce with hash := (candidate block bumps nonce).computeHash P } ∧
    Hits P block bumps nonce ∧
    ∀ bumps' nonce', bumps' < bumps ∨ bumps' = bumps ∧ nonce' < nonce → nonce' < kMaxNonce →
      ¬Hits P block bumps' nonce'
  given_up : result = none → (∃ answers call, shouldStop = some answers ∧ call < asked ∧ answers call = true) ∨
    ∀ bumps ≤ kMaxTimestampBumps.toNat, ∀ nonce < kMaxNonce, ¬Hits P block bumps nonce
  same : tryTimestamps P (answerAt shouldStop) block kMaxTimestampBumps.toNat = result

variable {shouldStop} {round : Nat} {s : Progress}

namespace Searching
variable (searching : Searching P shouldStop block round s)
include searching

/-- The call in a round gets the answer of its position. -/
theorem told_iff : s.Told shouldStop ↔
    s.nonce % kCancelCheckInterval = 0 ∧
      answerAt shouldStop (kMaxTimestampBumps.toNat - s.timestampBumps.toNat) s.nonce := by
  cases shouldStop with
  | none => simp [Progress.Told,answerAt]
  | some answers =>
    have calls := searching.calls rfl
    have bumped := searching.bumped
    simp only [Progress.Told,Progress.Asks,Option.isSome_some,and_true,Option.any_some,answerAt]
    refine and_congr_right fun due => ?_
    have whole : s.nonce.toNat % 65535 = 0 := congrArg UInt32.toNat due
    have number : s.asked = (kMaxTimestampBumps.toNat - (kMaxTimestampBumps.toNat - s.timestampBumps.toNat)) * 65537 +
        s.nonce.toNat / 65535 := by
      rw [calls,Nat.sub_sub_self bumped]
      omega
    rw [number]

theorem toNat_next : (s.nonce + 1).toNat = s.nonce.toNat + 1 := by
  have below := UInt32.lt_iff_toNat_lt.mp searching.inside
  rw [toNat_kMaxNonce] at below
  rw [UInt32.toNat_add,UInt32.toNat_one,Nat.mod_eq_of_lt (by omega)]

/-- Nor does the candidate of the round hit. -/
theorem missed_through (miss : ¬Hits P block s.timestampBumps.toNat s.nonce) {bumps : Nat} {nonce : UInt32}
    (earlier : bumps < s.timestampBumps.toNat ∨ bumps = s.timestampBumps.toNat ∧ nonce < s.nonce + 1)
    (inside : nonce < kMaxNonce) : ¬Hits P block bumps nonce := by
  rcases earlier with before | ⟨rfl,up_to⟩
  · exact searching.missed bumps nonce (.inl before) inside
  · rcases eq_or_ne nonce s.nonce with rfl | other
    · exact miss
    · refine searching.missed _ nonce (.inr ⟨rfl,?_⟩) inside
      have apart : nonce.toNat ≠ s.nonce.toNat := UInt32.toNat_inj.not.mpr other
      rw [UInt32.lt_iff_toNat_lt,searching.toNat_next] at up_to
      exact UInt32.lt_iff_toNat_lt.mpr (by omega)

/-- After a miss the calls are counted up to the next nonce. -/
theorem calls_next (given : shouldStop.isSome) :
    s.calls shouldStop =
      s.timestampBumps.toNat * 65537 + (s.nonce.toNat + 1 + 65534) / 65535 := by
  have calls := searching.calls given
  have due : s.nonce % kCancelCheckInterval = 0 ↔ s.nonce.toNat % 65535 = 0 := UInt32.toNat_inj.symm
  simp only [Progress.calls,Progress.Asks,given,and_true,due]
  split_ifs <;> omega

/-- What is left of the search after a miss. -/
theorem rest_next (quiet : ¬s.Told shouldStop)
    (miss : ¬Hits P block s.timestampBumps.toNat s.nonce) :
    tryTimestamps P (answerAt shouldStop) block kMaxTimestampBumps.toNat =
      goOn P (answerAt shouldStop) (candidate block s.timestampBumps.toNat block.nonce)
        (kMaxNonce.toNat - (s.nonce.toNat + 1)) (kMaxTimestampBumps.toNat - s.timestampBumps.toNat) := by
  rw [searching.rest,goOn_nonce searching.inside,if_neg (searching.told_iff.not.mp quiet)]
  exact if_neg miss

/-- The next nonce is tried. -/
theorem next (quiet : ¬s.Told shouldStop)
    (miss : ¬Hits P block s.timestampBumps.toNat s.nonce) (more : s.nonce + 1 ≠ kMaxNonce) :
    Searching P shouldStop block (round + 1) ⟨candidate block s.timestampBumps.toNat s.nonce,s.nonce + 1,
      s.timestampBumps,s.calls shouldStop⟩ where
  position := by
    rw [searching.toNat_next,searching.position,Nat.add_assoc]
  bumped := searching.bumped
  inside := by
    have apart : s.nonce.toNat + 1 ≠ kMaxNonce.toNat := searching.toNat_next ▸ UInt32.toNat_inj.not.mpr more
    have := UInt32.lt_iff_toNat_lt.mp searching.inside
    exact UInt32.lt_iff_toNat_lt.mpr (by rw [searching.toNat_next]; omega)
  own := ⟨s.nonce,rfl⟩
  missed := fun _ _ => searching.missed_through miss
  calls := fun given => by rw [searching.toNat_next]; exact searching.calls_next given
  rest := by rw [searching.toNat_next]; exact searching.rest_next quiet miss

/-- The timestamp is moved on. -/
theorem bump (quiet : ¬s.Told shouldStop)
    (miss : ¬Hits P block s.timestampBumps.toNat s.nonce) (last : s.nonce + 1 = kMaxNonce)
    (more : s.timestampBumps ≠ kMaxTimestampBumps) :
    Searching P shouldStop block (round + 1) ⟨candidate block (s.timestampBumps.toNat + 1) s.nonce,0,
      s.timestampBumps + 1,s.calls shouldStop⟩ := by
  have few : s.timestampBumps.toNat < kMaxTimestampBumps.toNat :=
    lt_of_le_of_ne searching.bumped (UInt32.toNat_inj.not.mpr more)
  have bumps : (s.timestampBumps + 1).toNat = s.timestampBumps.toNat + 1 := by
    have : kMaxTimestampBumps.toNat = 60 := rfl
    rw [UInt32.toNat_add,UInt32.toNat_one,Nat.mod_eq_of_lt (by omega)]
  have all : s.nonce.toNat + 1 = kMaxNonce.toNat := by rw [← searching.toNat_next,last]
  have inside : (0 : UInt32) < kMaxNonce := by decide
  refine ⟨?_,by rw [bumps]; exact few,inside,⟨s.nonce,by rw [bumps]⟩,?_,fun given => ?_,?_⟩
  · rw [bumps,searching.position,Nat.succ_mul,← all]
    rfl
  · intro j nonce earlier inside
    rw [bumps] at earlier
    refine searching.missed_through miss ?_ inside
    rw [last]
    rcases earlier with before | ⟨-,negative⟩
    · exact (Nat.lt_succ_iff_lt_or_eq.mp before).imp_right fun same => ⟨same,inside⟩
    · exact absurd negative (by simp)
  · refine (searching.calls_next given).trans ?_
    rw [all,bumps,toNat_kMaxNonce,UInt32.toNat_zero]
    omega
  · -- No nonce is left for this timestamp, so the rest is that of the next one.
    rw [searching.rest_next quiet miss,all,Nat.sub_self,bumps]
    obtain ⟨left,split⟩ := Nat.exists_eq_add_of_lt few
    have now : kMaxTimestampBumps.toNat - s.timestampBumps.toNat = left + 1 := by omega
    have later : kMaxTimestampBumps.toNat - (s.timestampBumps.toNat + 1) = left := by omega
    rw [now,later]
    refine (tryTimestamps_eq left).trans ?_
    rw [candidate,candidate,UInt64.ofNat_add,← add_assoc]
    rfl

theorem stopped (told : s.Told shouldStop) :
    Ends P shouldStop block none (s.calls shouldStop) where
  first := by simp
  given_up := fun _ => by
    obtain ⟨answers,given,yes⟩ := (Option.any_eq_true _ _).mp told.2
    exact .inl ⟨answers,s.asked,given,by rw [Progress.calls,if_pos told.1]; exact Nat.lt_succ_self _,yes⟩
  same := by rw [searching.rest,goOn_nonce searching.inside,if_pos (searching.told_iff.mp told)]

theorem found (quiet : ¬s.Told shouldStop)
    (hit : Hits P block s.timestampBumps.toNat s.nonce) (asked : Nat) :
    Ends P shouldStop block (some { candidate block s.timestampBumps.toNat s.nonce with
      hash := (candidate block s.timestampBumps.toNat s.nonce).computeHash P }) asked where
  first := fun solved same =>
    ⟨_,searching.bumped,_,searching.inside,(Option.some.inj same).symm,hit,searching.missed⟩
  given_up := by simp
  same := by
    rw [searching.rest,goOn_nonce searching.inside,if_neg (searching.told_iff.not.mp quiet)]
    exact if_pos hit

theorem exhausted (quiet : ¬s.Told shouldStop)
    (miss : ¬Hits P block s.timestampBumps.toNat s.nonce) (last : s.nonce + 1 = kMaxNonce)
    (done : s.timestampBumps = kMaxTimestampBumps) (asked : Nat) : Ends P shouldStop block none asked where
  first := by simp
  given_up := fun _ => by
    refine .inr fun bumps few nonce inside => searching.missed_through miss ?_ inside
    rw [last,done]
    exact (Nat.lt_or_eq_of_le few).imp_right fun same => ⟨same,inside⟩
  same := by
    have all : s.nonce.toNat + 1 = kMaxNonce.toNat := by rw [← searching.toNat_next,last]
    rw [searching.rest_next quiet miss,all,done,Nat.sub_self,Nat.sub_self]
    rfl

/-- A round takes the search on or ends it. -/
theorem turn : (∀ next, mineRound P shouldStop s = .inl next → Searching P shouldStop block (round + 1) next) ∧
    ∀ result asked, mineRound P shouldStop s = .inr (result,asked) → Ends P shouldStop block result asked := by
  obtain ⟨old,own⟩ := searching.own
  have round_eq : mineRound P shouldStop s =
      if s.Told shouldStop then .inr (none,s.calls shouldStop)
      else if meetsTarget ((candidate block s.timestampBumps.toNat s.nonce).computeHash P) block.difficulty then
        .inr (some { candidate block s.timestampBumps.toNat s.nonce with
          hash := (candidate block s.timestampBumps.toNat s.nonce).computeHash P },s.calls shouldStop)
      else if s.nonce + 1 = kMaxNonce then
        if s.timestampBumps = kMaxTimestampBumps then .inr (none,s.calls shouldStop)
        else .inl ⟨candidate block (s.timestampBumps.toNat + 1) s.nonce,0,s.timestampBumps + 1,s.calls shouldStop⟩
      else .inl ⟨candidate block s.timestampBumps.toNat s.nonce,s.nonce + 1,s.timestampBumps,s.calls shouldStop⟩ := by
    rw [mineRound,own,candidate,candidate,candidate,UInt64.ofNat_add,← add_assoc]
    rfl
  rw [round_eq]
  split_ifs with told hit last done
  · refine ⟨by simp,?_⟩
    rintro _ _ ⟨⟩
    exact searching.stopped told
  · refine ⟨by simp,?_⟩
    rintro _ _ ⟨⟩
    exact searching.found told hit _
  · refine ⟨by simp,?_⟩
    rintro _ _ ⟨⟩
    exact searching.exhausted told hit last done _
  · refine ⟨?_,by simp⟩
    rintro _ ⟨⟩
    exact searching.bump told hit last done
  · refine ⟨?_,by simp⟩
    rintro _ ⟨⟩
    exact searching.next told hit last

end Searching

theorem searching_start (P : Primitives) (shouldStop : Option (Nat → Bool)) (block : Block) :
    Searching P shouldStop block 0 ⟨block,0,0,0⟩ where
  position := by simp
  bumped := Nat.zero_le _
  inside := show (0 : UInt32) < kMaxNonce by decide
  own := ⟨block.nonce,by simp [candidate]⟩
  missed := fun bumps nonce earlier => by simp at earlier
  calls := fun _ => by simp
  rest := by
    rw [tryTimestamps_eq]
    simp [candidate]

/-- The loop ends within as many rounds as there are candidates. -/
theorem loop_searches (P : Primitives) (shouldStop : Option (Nat → Bool)) (block : Block) :
    ∃ result asked, Ends P shouldStop block result asked ∧
      ∀ rounds ≥ (kMaxTimestampBumps.toNat + 1) * kMaxNonce.toNat,
        loop (mineRound P shouldStop) rounds ⟨block,0,0,0⟩ = some (result,asked) := by
  suffices ends : ∃ result : Option Block × Nat, Ends P shouldStop block result.1 result.2 ∧
      ∀ rounds ≥ (kMaxTimestampBumps.toNat + 1) * kMaxNonce.toNat,
        loop (mineRound P shouldStop) rounds ⟨block,0,0,0⟩ = some result by
    obtain ⟨⟨result,asked⟩,ends,runs⟩ := ends
    exact ⟨result,asked,ends,runs⟩
  refine loop_ends ?_ ?_ ?_ (searching_start P shouldStop block)
  · intro round s searching
    have inside := UInt32.lt_iff_toNat_lt.mp searching.inside
    rw [searching.position,Nat.succ_mul]
    exact Nat.add_lt_add_of_le_of_lt (Nat.mul_le_mul_right _ searching.bumped) inside
  · intro round s next searching went_on
    exact searching.turn.1 next went_on
  · rintro round s ⟨result,asked⟩ searching ended
    exact searching.turn.2 result asked ended

end

variable (P : Primitives) (shouldStop : Option (Nat → Bool)) (version : UInt32) (prevHash : HashBytes)
  (timestamp : UInt64) (difficulty : UInt32) (transactions : List Transaction)

/-- A search ends. The block it finds is the first that meets the target, in the
    order of timestamps and nonces; it finds none if it was told to stop or if
    no candidate meets the target. -/
theorem mineBlock_exhaustive :
    let block := unmined P version prevHash timestamp difficulty transactions
    ∃ result asked,
      (∀ rounds ≥ (kMaxTimestampBumps.toNat + 1) * kMaxNonce.toNat,
        mineLoop P shouldStop rounds version prevHash timestamp difficulty transactions = some (result,asked)) ∧
      (∀ solved, result = some solved →
        solved.version = version ∧ solved.prevHash = prevHash ∧ solved.difficulty = difficulty ∧
        solved.transactions = transactions ∧ solved.hash = solved.computeHash P ∧
        meetsTarget solved.hash difficulty = true ∧ solved.nonce < kMaxNonce ∧
        ∃ bumps ≤ kMaxTimestampBumps.toNat, solved.timestamp = timestamp + UInt64.ofNat bumps ∧
          ∀ bumps' nonce, bumps' < bumps ∨ bumps' = bumps ∧ nonce < solved.nonce → nonce < kMaxNonce →
            meetsTarget ((candidate block bumps' nonce).computeHash P) difficulty = false) ∧
      (result = none →
        (∃ answers call, shouldStop = some answers ∧ call < asked ∧ answers call = true) ∨
        ∀ bumps ≤ kMaxTimestampBumps.toNat, ∀ nonce < kMaxNonce,
          meetsTarget ((candidate block bumps nonce).computeHash P) difficulty = false) := by
  intro block
  obtain ⟨result,asked,ends,runs⟩ := loop_searches P shouldStop block
  refine ⟨result,asked,runs,fun solved found => ?_,fun nothing => ?_⟩
  · obtain ⟨bumps,few,nonce,inside,rfl,hit,missed⟩ := ends.first solved found
    refine ⟨rfl,rfl,rfl,rfl,rfl,hit,inside,bumps,few,rfl,fun bumps' nonce' earlier inside' => ?_⟩
    exact eq_false_of_ne_true (missed bumps' nonce' earlier inside')
  · refine (ends.given_up nothing).imp_right fun all bumps few nonce inside => ?_
    exact eq_false_of_ne_true (all bumps few nonce inside)

/-- Told to stop at the second call, after the nonces in between. -/
example : mineRound Samples.sample (some (· == 1)) ⟨Samples.plainA,0xFFFF,0,1⟩ = .inr (none,2) := by decide +kernel

/-- The loop over timestamps and nonces does the same. -/
theorem mineBlock_is_loop {rounds : Nat} (enough : (kMaxTimestampBumps.toNat + 1) * kMaxNonce.toNat ≤ rounds) :
    (mineLoop P shouldStop rounds version prevHash timestamp difficulty transactions).map Prod.fst =
      some (mineBlock P version prevHash timestamp difficulty transactions (answerAt shouldStop)) := by
  obtain ⟨result,asked,ends,runs⟩ :=
    loop_searches P shouldStop (unmined P version prevHash timestamp difficulty transactions)
  rw [mineLoop,runs rounds enough]
  exact congrArg some ends.same.symm

end ForgeChain.MineLoop
