import ForgeChain.Calls

/-!
What the outcomes and the tip version say about the chain. A call that returns
`Accepted`, `Reorged` or true has changed the chain, and counts the tip version
up once; any other leaves both alone. So the chain is the same at two points of a
run that have the same tip version, unless the counter has wrapped between them.
-/
namespace ForgeChain
open Runs

section
variable (P : Primitives)

/-- The call returns that it changed the chain. -/
def ChangesTip (m : ChainManager) : Call → Prop
  | .submitBlock reading block =>
    ∃ outcome ∈ (m.submitBlock P reading block).1.toOption, outcome.status = .Accepted ∨ outcome.status = .Reorged
  | .adoptBranch now blocks => (m.adoptBranch P now blocks).1 = .ok true
  | .restoreBlock block => (m.restoreBlock P block).1 = .ok true
  | .submitTransaction _ => False
  | .setBalance _ _ => False

instance (m : ChainManager) : (call : Call) → Decidable (ChangesTip P m call)
  | .submitBlock reading block => inferInstanceAs (Decidable (∃ outcome ∈ (m.submitBlock P reading block).1.toOption, _))
  | .adoptBranch now blocks => inferInstanceAs (Decidable ((m.adoptBranch P now blocks).1 = _))
  | .restoreBlock block => inferInstanceAs (Decidable ((m.restoreBlock P block).1 = _))
  | .submitTransaction _ => inferInstanceAs (Decidable False)
  | .setBalance _ _ => inferInstanceAs (Decidable False)

/-- How often calls return that they changed the chain. -/
def tipChanges : ChainManager → List Call → Nat
  | _, [] => 0
  | m, call :: rest => (if ChangesTip P m call then 1 else 0) + tipChanges (m.after P call) rest

/-- The chain is cut somewhere and goes on with blocks of the given hashes, and
    its tip has more work than before. -/
def Switched (chain chain' : Blockchain) (hashes : List HashBytes) : Prop :=
  ∃ height branch, branch ≠ [] ∧ height < chain.size ∧ chain'.blocks = chain.blocks.take (height + 1) ++ branch ∧
    branch.map Block.hash = hashes ∧ chain.latest.cumulativeWork < chain'.latest.cumulativeWork

variable {P} {m m' : ChainManager}

/-- A reorganization onto a branch that grows from the chain. -/
theorem switched_of_grown {now : UInt64} {fork : ForkChain} {height : Nat} (grown : Grown P m now fork height)
    (some_left : fork.blocks ≠ []) (reorg : Reorganized P m m' fork height) :
    Switched m.blockchain m'.blockchain (fork.blocks.map Block.hash) := by
  refine ⟨height,Blockchain.stamp (m.blockchain.cut height).latest.cumulativeWork fork.blocks,?_,?_,?_,?_,?_⟩
  · rw [← List.length_pos_iff,Blockchain.stamp_length]
    exact List.length_pos_iff.mpr some_left
  · exact (List.getElem?_eq_some_iff.mp grown.ancestor).1
  · rw [reorg.blockchain,Blockchain.blocks_foldl_addBlock]
    rfl
  · exact Blockchain.stamp_map (fun _ _ => rfl) _ _
  · rw [reorg.blockchain,work_reorganized grown.ancestor]
    simpa [isForkHeavier] using reorg.heavier

/-- What a submitted block's outcome says, or that the call raised. -/
inductive SubmitReport (m : ChainManager) (block : Block) : Except Exn BlockOutcome × ChainManager → Prop
  | accepted {m' : ChainManager} (blockchain : m'.blockchain = m.blockchain.addBlock block)
      (tipVersion : m'.tipVersion = m.tipVersion + 1) : SubmitReport m block (.ok (.accepted block),m')
  | reorged {m' : ChainManager} {hashes : List HashBytes} (switched : Switched m.blockchain m'.blockchain hashes)
      (tipVersion : m'.tipVersion = m.tipVersion + 1) : SubmitReport m block (.ok (.reorged hashes),m')
  | rejected {m' : ChainManager} (blockchain : m'.blockchain = m.blockchain) (tipVersion : m'.tipVersion = m.tipVersion) :
      SubmitReport m block (.ok .rejected,m')
  | needParent {m' : ChainManager} (blockchain : m'.blockchain = m.blockchain)
      (tipVersion : m'.tipVersion = m.tipVersion) : SubmitReport m block (.ok (.needParent block),m')
  | raised {m' : ChainManager} {e : Exn} (blockchain : m'.blockchain = m.blockchain)
      (tipVersion : m'.tipVersion = m.tipVersion) : SubmitReport m block (.error e,m')

theorem submitBlock_report (regular : Regular P m) (reading : Reading) (block : Block) :
    SubmitReport m block (m.submitBlock P reading block) := by
  cases submitBlock_cases regular reading block with
  | refused notOn notOff run =>
    rw [run]
    exact .rejected rfl rfl
  | accepted tip signed applied run =>
    rw [run]
    exact .accepted rfl rfl
  | rolledBack tip before tx after split signed applied stops run =>
    rw [run]
    exact .rejected rfl rfl
  | raised tip before tx after e split signed applied bad run =>
    rw [run]
    exact .raised rfl rfl
  | waiting off untraced run =>
    rw [run]
    exact .needParent rfl rfl
  | outweighed off traced weak run =>
    rw [run]
    exact .rejected rfl rfl
  | unverifiable off fork chosen e heavier bad run =>
    rw [run]
    exact .raised rfl rfl
  | reorganized off fork chosen height m' reorg ledger run =>
    obtain ⟨height',grown,-⟩ := chosen.grown regular
    obtain rfl : height = height' := Option.some.inj (reorg.found.symm.trans grown.valid.found)
    have pooled : Grown P (m.pooled block) reading.now fork height := ⟨grown.ancestor,grown.linked,grown.valid.found,
      grown.valid.fits⟩
    have switched := switched_of_grown pooled (chosen.nonempty regular) reorg
    rw [run]
    exact .reorged switched reorg.tipVersion

/-- What the answer of `adopt_branch` says, or that the call raised. -/
inductive AdoptReport (m : ChainManager) : Except Exn Bool × ChainManager → Prop
  | adopted {m' : ChainManager} {hashes : List HashBytes} (switched : Switched m.blockchain m'.blockchain hashes)
      (tipVersion : m'.tipVersion = m.tipVersion + 1) : AdoptReport m (.ok true,m')
  | kept : AdoptReport m (.ok false,m)
  | raised {e : Exn} : AdoptReport m (.error e,m)

theorem adoptBranch_report (regular : Regular P m) (now : UInt64) (blocks : List Block) :
    AdoptReport m (m.adoptBranch P now blocks) := by
  cases adoptBranch_cases regular now blocks with
  | refused weak run =>
    rw [run]
    exact .kept
  | unverifiable fork requested e heavier bad run =>
    rw [run]
    exact .raised
  | reorganized fork requested height m' reorg ledger run =>
    obtain ⟨height',request⟩ := Request.of_requested regular.sound requested
    obtain rfl : height = height' := Option.some.inj (reorg.found.symm.trans request.grown.valid.found)
    rw [run]
    exact .adopted (switched_of_grown request.grown request.nonempty reorg) reorg.tipVersion

/-- A call that does not return a change keeps the chain and the tip version. -/
theorem kept_of_not_changesTip (regular : Regular P m) {call : Call} (still : ¬ ChangesTip P m call) :
    (m.after P call).blockchain = m.blockchain ∧ (m.after P call).tipVersion = m.tipVersion := by
  cases call with
  | submitBlock reading block =>
    have report := submitBlock_report regular reading block
    rw [ChangesTip] at still
    rw [ChainManager.after]
    revert still report
    generalize m.submitBlock P reading block = result
    intro still report
    cases report with
    | accepted blockchain tipVersion => exact absurd ⟨_,rfl,.inl rfl⟩ still
    | reorged switched tipVersion => exact absurd ⟨_,rfl,.inr rfl⟩ still
    | rejected blockchain tipVersion => exact ⟨blockchain,tipVersion⟩
    | needParent blockchain tipVersion => exact ⟨blockchain,tipVersion⟩
    | raised blockchain tipVersion => exact ⟨blockchain,tipVersion⟩
  | submitTransaction tx => exact ⟨rfl,rfl⟩
  | adoptBranch now blocks =>
    have report := adoptBranch_report regular now blocks
    rw [ChangesTip] at still
    rw [ChainManager.after]
    revert still report
    generalize m.adoptBranch P now blocks = result
    intro still report
    cases report with
    | adopted switched tipVersion => exact absurd rfl still
    | kept => exact ⟨rfl,rfl⟩
    | raised => exact ⟨rfl,rfl⟩
  | restoreBlock block =>
    rw [ChangesTip] at still
    rw [ChainManager.after]
    cases restoreBlock_cases P m block with
    | restored signed applied run => exact absurd (by rw [run]) still
    | raised before tx after e split applied bad run => exact ⟨by rw [run],by rw [run]⟩
    | rolledBack before tx after split applied stops run => exact ⟨by rw [run],by rw [run]⟩
  | setBalance address amount => exact ⟨rfl,rfl⟩

/-- A call that returns a change counts the tip version up once. -/
theorem tipVersion_of_changesTip (regular : Regular P m) {call : Call} (changes : ChangesTip P m call) :
    (m.after P call).tipVersion = m.tipVersion + 1 := by
  cases call with
  | submitBlock reading block =>
    have report := submitBlock_report regular reading block
    rw [ChangesTip] at changes
    rw [ChainManager.after]
    revert changes report
    generalize m.submitBlock P reading block = result
    rintro ⟨outcome,returned,status⟩ report
    cases report with
    | accepted blockchain tipVersion => exact tipVersion
    | reorged switched tipVersion => exact tipVersion
    | rejected blockchain tipVersion =>
      cases returned
      simp [BlockOutcome.rejected] at status
    | needParent blockchain tipVersion =>
      cases returned
      simp [BlockOutcome.needParent] at status
    | raised blockchain tipVersion => cases returned
  | submitTransaction tx => exact changes.elim
  | adoptBranch now blocks =>
    have report := adoptBranch_report regular now blocks
    rw [ChangesTip] at changes
    rw [ChainManager.after]
    revert changes report
    generalize m.adoptBranch P now blocks = result
    intro changes report
    cases report with
    | adopted switched tipVersion => exact tipVersion
    | kept => cases changes
    | raised => cases changes
  | restoreBlock block =>
    rw [ChangesTip] at changes
    rw [ChainManager.after]
    cases restoreBlock_cases P m block with
    | restored signed applied run => rw [run]
    | raised before tx after e split applied bad run =>
      rw [run] at changes
      cases changes
    | rolledBack before tx after split applied stops run =>
      rw [run] at changes
      cases changes
  | setBalance address amount => exact changes.elim

/-- The tip version counts the changes; without any the chain stays. -/
theorem tipVersion_run (regular : Regular P m) (calls : List Call) :
    (run (ChainManager.after P) m calls).tipVersion = m.tipVersion + UInt64.ofNat (tipChanges P m calls) ∧
      (tipChanges P m calls = 0 → (run (ChainManager.after P) m calls).blockchain = m.blockchain) := by
  induction calls generalizing m with
  | nil => exact ⟨by simp [tipChanges],fun _ => rfl⟩
  | cons call rest ih =>
    obtain ⟨version,still⟩ := ih (regular_after regular call)
    rw [run_cons,tipChanges]
    by_cases changes : ChangesTip P m call
    · rw [if_pos changes,version,tipVersion_of_changesTip regular changes]
      refine ⟨?_,fun none => by omega⟩
      rw [UInt64.ofNat_add,add_assoc]
      rfl
    · obtain ⟨chain,same⟩ := kept_of_not_changesTip regular changes
      rw [if_neg changes,version,same,Nat.zero_add]
      exact ⟨rfl,fun none => (still none).trans chain⟩

/-- In every reachable state: what `submit_block` and `adopt_branch` return says
    what became of the chain, they count the tip version up exactly when they
    return a change, and as long as less than `2 ^ 64` changes lie between two
    points of a run, the chain is the same where the tip version is. -/
theorem outcomes_describe_chain (P : Primitives) (mempoolMaxSize : Nat) (params : ConsensusParams)
    (storage : Option Storage) (calls : List Call) :
    let m := run (ChainManager.after P) (.new P mempoolMaxSize params storage) calls
    (∀ reading block outcome m', m.submitBlock P reading block = (.ok outcome,m') →
      match outcome.status with
      | .Accepted =>
        m'.blockchain.blocks = m.blockchain.blocks ++
            [{ block with cumulativeWork := block.blockWork + m.blockchain.latest.cumulativeWork }] ∧
          outcome.toBroadcast = [block.hash] ∧ m'.tipVersion = m.tipVersion + 1
      | .Reorged => Switched m.blockchain m'.blockchain outcome.toBroadcast ∧ m'.tipVersion = m.tipVersion + 1
      | .Rejected | .NeedParent =>
        m'.blockchain = m.blockchain ∧ outcome.toBroadcast = [] ∧ m'.tipVersion = m.tipVersion) ∧
    (∀ now blocks m', m.adoptBranch P now blocks = (.ok true,m') →
      (∃ hashes, Switched m.blockchain m'.blockchain hashes) ∧ m'.tipVersion = m.tipVersion + 1) ∧
    (∀ now blocks m', m.adoptBranch P now blocks = (.ok false,m') →
      m'.blockchain = m.blockchain ∧ m'.tipVersion = m.tipVersion) ∧
    (∀ call, (ChangesTip P m call → (m.after P call).tipVersion = m.tipVersion + 1) ∧
      (¬ ChangesTip P m call → (m.after P call).tipVersion = m.tipVersion)) ∧
    ∀ later, tipChanges P m later < 2 ^ 64 → (run (ChainManager.after P) m later).tipVersion = m.tipVersion →
      (run (ChainManager.after P) m later).blockchain = m.blockchain := by
  intro m
  have regular : Regular P m := regular_run P mempoolMaxSize params storage calls
  refine ⟨?_,?_,?_,?_,?_⟩
  · intro reading block outcome m' returned
    have report := submitBlock_report regular reading block
    rw [returned] at report
    cases report with
    | accepted blockchain tipVersion => exact ⟨by rw [blockchain]; rfl,rfl,tipVersion⟩
    | reorged switched tipVersion => exact ⟨switched,tipVersion⟩
    | rejected blockchain tipVersion => exact ⟨blockchain,rfl,tipVersion⟩
    | needParent blockchain tipVersion => exact ⟨blockchain,rfl,tipVersion⟩
  · intro now blocks m' returned
    have report := adoptBranch_report regular now blocks
    rw [returned] at report
    cases report with
    | adopted switched tipVersion => exact ⟨⟨_,switched⟩,tipVersion⟩
  · intro now blocks m' returned
    have report := adoptBranch_report regular now blocks
    rw [returned] at report
    cases report with
    | kept => exact ⟨rfl,rfl⟩
  · intro call
    exact ⟨tipVersion_of_changesTip regular,fun still => (kept_of_not_changesTip regular still).2⟩
  · intro later few same
    obtain ⟨version,still⟩ := tipVersion_run regular later
    refine still ?_
    rw [same] at version
    have zero : UInt64.ofNat (tipChanges P m later) = 0 := by
      exact (add_eq_left.mp version.symm)
    have := congrArg UInt64.toNat zero
    rwa [UInt64.toNat_ofNat_of_lt' few] at this

end
end ForgeChain
