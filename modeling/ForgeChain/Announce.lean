import ForgeChain.RunningNode
import ForgeChain.Outcomes

/-!
Announcing blocks. What a block from a peer or from the miner brings into the
chain is announced to every live peer but the sender. What a catch-up brings in
is announced to nobody: `adopt_branch` says only whether it changed the chain.
So every block is announced along the runs in which a catch-up that ends has no
heavier branch to offer, or nobody is there to tell (`announced_run`).
-/
namespace ForgeChain.RunningNode
open Runs

section
variable (P : Primitives)

/-- The peer that what an input brings comes from. -/
def source (n : RunningNode) : Input → Option Nat
  | .received socket _ _ _ => some socket
  | .cleaned _ _ => n.syncState.peer
  | _ => none

/-- Every block that is in the chain after a reaction and was not before is
    announced to every live peer but the one it came from. -/
def Announces (n : RunningNode) (input : Input) : Prop :=
  ∀ block ∈ (n.next P input).chain.blockchain.blocks, block ∉ n.chain.blockchain.blocks →
    ∀ peer ∈ (n.next P input).targets (n.source input),
      .sendMsg peer.socket (.inv [⟨.block,block.hash⟩]) ∈ (n.react P input).2

instance (n : RunningNode) (input : Input) : Decidable (n.Announces P input) :=
  inferInstanceAs (Decidable (∀ block ∈ (n.next P input).chain.blockchain.blocks, _ →
    ∀ peer ∈ (n.next P input).targets (n.source input), _))

/-- The catch-up ends now. -/
def Ends (n : RunningNode) (now : Nat) : Prop := n.syncState.active = true ∧ n.syncState.Due n.syncAlive now

/-- If a catch-up ends with the input, its blocks do not make a heavier branch or
    no live peer but its own is there. -/
def Heard (n : RunningNode) : Input → Prop
  | .cleaned now wall => n.Ends now →
    (∀ fork, n.chain.requestedFork P wall n.syncState.buffer = .ok (some fork) →
      isForkHeavier n.chain.blockchain fork = false) ∨ n.targets n.syncState.peer = []
  | _ => True

end

variable {P : Primitives} {n : RunningNode}

/-! ### The chain of a node -/

/-- Cleaning keeps the live peers, so also that of the catch-up. -/
theorem targets_clean (n : RunningNode) (exclude : Option Nat) :
    { n with node := n.node.clean }.targets exclude = n.targets exclude := by
  simp only [targets,Node.clean,List.filter_map,List.filter_filter]
  congr 1
  refine List.filter_congr fun entry _ => ?_
  simp [Function.comp]

theorem syncAlive_clean (n : RunningNode) : { n with node := n.node.clean }.syncAlive = n.syncAlive := by
  simp only [syncAlive,Node.clean,List.any_filter]
  congr 1
  funext entry
  cases entry.peer.alive with
  | true => simp
  | false => simp

/-- What an input does to the chain and what is said about it. -/
inductive Effect (P : Primitives) (n : RunningNode) (input : Input) : Prop
  | idle (chain : (n.next P input).chain = n.chain)
  | transacted (tx : Transaction) (chain : (n.next P input).chain = (n.chain.submitTransaction P tx).2)
  | raised (reading : Reading) (block : Block) (e : Exn)
      (submitted : n.chain.submitBlock P reading block = (.error e,(n.next P input).chain))
  | submitted (reading : Reading) (block : Block) (outcome : BlockOutcome)
      (submitted : n.chain.submitBlock P reading block = (.ok outcome,(n.next P input).chain))
      (said : outcome.status = .Accepted ∨ outcome.status = .Reorged → ∀ hash ∈ outcome.toBroadcast,
        ∀ peer ∈ (n.next P input).targets (n.source input),
          .sendMsg peer.socket (.inv [⟨.block,hash⟩]) ∈ (n.react P input).2)
  | caughtUp (now : Nat) (wall : UInt64) (what : input = .cleaned now wall) (ends : n.Ends now)
      (chain : (n.next P input).chain = (n.chain.adoptBranch P wall n.syncState.buffer).2)
      (left : (n.next P input).targets n.syncState.peer = n.targets n.syncState.peer)

theorem mem_announced {hashes : List HashBytes} {exclude : Option Nat} {hash : HashBytes} {peer : Peer}
    (listed : hash ∈ hashes) (target : peer ∈ n.targets exclude) :
    .sendMsg peer.socket (.inv [⟨.block,hash⟩]) ∈ hashes.flatMap (n.broadcastInv exclude .block) :=
  List.mem_flatMap.mpr ⟨hash,listed,List.mem_map.mpr ⟨peer,target,rfl⟩⟩

/-- Blocks for the chain are those of a catch-up that ends. -/
theorem finishSyncIfDue_some {s : SyncState} {alive : Bool} {now : Nat} {buffer : List Block}
    (taken : (s.finishSyncIfDue alive now).1 = some buffer) : (s.active = true ∧ s.Due alive now) ∧ buffer = s.buffer := by
  unfold SyncState.finishSyncIfDue at taken
  split at taken
  · cases taken
  split at taken
  · cases taken
  · case isFalse active due =>
    dsimp only at taken
    split at taken
    · cases taken
    · cases taken
      exact ⟨⟨Bool.eq_true_of_not_eq_false active,not_not.mp due⟩,rfl⟩

theorem clean_effect (P : Primitives) (n : RunningNode) (now : Nat) (wall : UInt64) :
    Effect P n (.cleaned now wall) := by
  have runs : n.next P (.cleaned now wall) = finishSyncIfDue P { n with node := n.node.clean } now wall := rfl
  cases finishSyncIfDue_cases P { n with node := n.node.clean } now wall with
  | quiet syncState none run => exact .idle (by rw [runs,run])
  | handed syncState buffer taken run =>
    obtain ⟨ends,rfl⟩ := finishSyncIfDue_some taken
    rw [syncAlive_clean] at ends
    refine .caughtUp now wall rfl ends (by rw [runs,run]) ?_
    rw [runs,run]
    exact targets_clean n n.syncState.peer

theorem block_effect (P : Primitives) (n : RunningNode) {socket : Nat} {message : Message} {reading : Reading} {now : Nat}
    {payload : Bytes} (handles : n.react P (.received socket message reading now) =
      n.handleBlock P socket payload reading now) : Effect P n (.received socket message reading now) := by
  have runs : n.next P (.received socket message reading now) = (n.handleBlock P socket payload reading now).1 := by
    rw [next,handles]
  cases handleBlock_cases P n socket payload reading now with
  | buffered syncState taken run => exact .idle (by rw [runs,run])
  | unread unreadable run => exact .idle (by rw [runs,run])
  | raised block chain e read submitted run => exact .raised reading block e (by rw [runs,run,submitted])
  | submitted block chain outcome read submitted run =>
    refine .submitted reading block outcome (by rw [runs,run,submitted]) fun changed hash listed peer target => ?_
    rw [runs,run] at target
    rw [handles,run,respond]
    rcases changed with accepted | reorged
    · rw [accepted]
      exact mem_announced listed target
    · rw [reorged]
      exact mem_announced listed target

theorem react_effect (P : Primitives) (n : RunningNode) (input : Input) : Effect P n input := by
  cases input with
  | received socket message reading now =>
    rcases found : n.livePeer socket with _ | peer
    · exact .idle (by simp only [next,react,found])
    have here : peer.socket = socket := by
      have same := List.find?_some found
      simpa using same
    have handled : n.react P (.received socket message reading now) = n.handle P peer message reading now := by
      simp only [react,found]
    unfold handle at handled
    split at handled
    · exact .idle (by rw [next,handled])
    split at handled
    · exact .idle (by rw [next,handled])
    split at handled
    · rw [here] at handled
      exact block_effect P n handled
    split at handled
    · rcases handleTx_cases P n peer.socket message.payload with run | ⟨tx,said,run,-⟩
      · exact .idle (by rw [next,handled,run])
      · exact .transacted tx (by rw [next,handled,run])
    split at handled
    · exact .idle (by rw [next,handled])
    split at handled
    · exact .idle (by rw [next,handled])
    split at handled
    · exact .idle (by rw [next,handled]; rfl)
    · exact .idle (by rw [next,handled])
  | lost socket => exact .idle rfl
  | cleaned now wall => exact clean_effect P n now wall
  | pinged elapsed => exact .idle rfl
  | syncRequested now delivered => exact .idle (calm_requestSync P n now delivered).chain
  | gossiped => exact .idle rfl
  | accepted host answer now => exact .idle (calm_acceptOnePeer P n host answer now).chain
  | connectTold address answer now => exact .idle (calm_connectToPeer P n address answer now).chain
  | dialed answer now => exact .idle (calm_dialCandidate P n answer now).chain
  | mined reading block =>
    rcases submitted : n.chain.submitBlock P reading block with ⟨e | outcome,chain⟩
    · exact .raised reading block e (by simp only [next,react,submitBlock,submitted])
    · refine .submitted reading block outcome (by simp only [next,react,submitBlock,submitted])
        fun _ hash listed peer target => ?_
      simp only [next,react,submitBlock,submitted] at target ⊢
      exact mem_announced listed target
  | paid tx =>
    obtain ⟨said,run,-⟩ := submitTransaction_cases P n tx
    exact .transacted tx (by rw [next,react,run])
  | remembered address now => exact .idle rfl
  | stopped => exact .idle rfl

/-! ### Runs -/

theorem regular_next (regular : Regular P n.chain) (input : Input) : Regular P (n.next P input).chain := by
  cases react_effect P n input with
  | idle chain => exact chain ▸ regular
  | transacted tx chain => exact chain ▸ regular_after regular (.submitTransaction tx)
  | raised reading block e submitted =>
    have after := regular_after regular (.submitBlock reading block)
    rwa [ChainManager.after,submitted] at after
  | submitted reading block outcome submitted said =>
    have after := regular_after regular (.submitBlock reading block)
    rwa [ChainManager.after,submitted] at after
  | caughtUp now wall what ends chain left => exact chain ▸ regular_after regular (.adoptBranch wall n.syncState.buffer)

/-- A submission that brings blocks into the chain lists them. -/
theorem listed_of_entered {m m' : ChainManager} (regular : Regular P m) {reading : Reading} {block entered : Block}
    {outcome : BlockOutcome} (submitted : m.submitBlock P reading block = (.ok outcome,m'))
    (there : entered ∈ m'.blockchain.blocks) (new : entered ∉ m.blockchain.blocks) :
    (outcome.status = .Accepted ∨ outcome.status = .Reorged) ∧ entered.hash ∈ outcome.toBroadcast := by
  have report := submitBlock_report regular reading block
  rw [submitted] at report
  cases report with
  | accepted blockchain tipVersion =>
    rw [blockchain] at there
    rcases List.mem_append.mp there with old | last
    · exact absurd old new
    · rw [List.mem_singleton.mp last]
      exact ⟨Or.inl rfl,List.mem_singleton.mpr rfl⟩
  | reorged switched tipVersion =>
    obtain ⟨height,branch,-,-,blocks,hashes,-⟩ := switched
    rw [blocks] at there
    rcases List.mem_append.mp there with old | last
    · exact absurd (List.mem_of_mem_take old) new
    · refine ⟨Or.inr rfl,?_⟩
      rw [BlockOutcome.reorged,← hashes]
      exact List.mem_map_of_mem last
  | rejected blockchain tipVersion => exact absurd (blockchain ▸ there) new
  | needParent blockchain tipVersion => exact absurd (blockchain ▸ there) new

/-- A branch that is not heavier is not adopted. -/
theorem adoptBranch_light {m : ChainManager} (regular : Regular P m) {now : UInt64} {blocks : List Block}
    (light : ∀ fork, m.requestedFork P now blocks = .ok (some fork) → isForkHeavier m.blockchain fork = false) :
    (m.adoptBranch P now blocks).2 = m := by
  cases adoptBranch_cases regular now blocks with
  | refused weak run => rw [run]
  | unverifiable fork requested e heavier bad run => rw [run]
  | reorganized fork requested height m' reorg ledger run =>
    exact absurd ((light fork requested).symm.trans reorg.heavier) Bool.false_ne_true

theorem announces_next (regular : Regular P n.chain) {input : Input} (heard : Heard P n input) : Announces P n input := by
  intro block there new peer target
  cases react_effect P n input with
  | idle chain => exact absurd (chain ▸ there) new
  | transacted tx chain =>
    rw [chain] at there
    exact absurd there new
  | raised reading other e submitted =>
    have report := submitBlock_report regular reading other
    rw [submitted] at report
    cases report with
    | raised blockchain tipVersion => exact absurd (blockchain ▸ there) new
  | submitted reading other outcome submitted said =>
    obtain ⟨changed,listed⟩ := listed_of_entered regular submitted there new
    exact said changed block.hash listed peer target
  | caughtUp now wall what ends chain left =>
    subst what
    rcases heard ends with light | nobody
    · rw [chain,adoptBranch_light regular light] at there
      exact absurd there new
    · rw [source,left,nobody] at target
      exact absurd target List.not_mem_nil

/-- Every block that enters the chain of a node is announced, along every run in
    which a catch-up that ends offers no heavier branch or finds nobody to tell. -/
theorem announced_run (P : Primitives) (listenPort : UInt16) (info : VersionInfo) (mempoolMaxSize : Nat)
    (params : ConsensusParams) (storage : Option Storage) (calls : List Call) (inputs : List Input)
    (heard : Along (next P) (Heard P)
      (new listenPort info (run (ChainManager.after P) (.new P mempoolMaxSize params storage) calls)) inputs) :
    Along (next P) (Announces P)
      (new listenPort info (run (ChainManager.after P) (.new P mempoolMaxSize params storage) calls)) inputs :=
  heard.yields (motive := fun n => Regular P n.chain) (fun _ input regular _ => regular_next regular input)
    (fun _ _ regular heard => announces_next regular heard) (regular_run P mempoolMaxSize params storage calls)

/-- Two peers connect; the first is ahead by some blocks and sends one. -/
def arrival (ahead : UInt64) : List Input :=
  [.accepted (some (dottedQuad 9 9 9 9)) ⟨some 2,some ⟨1,1,0,9000,3⟩,true⟩ 0,
    .accepted (some (dottedQuad 8 8 8 8)) ⟨some 1,some ⟨1,1 + ahead,0,9000,2⟩,true⟩ 1,
    .received 1 ⟨.block,Samples.plainA.serialize⟩ Samples.reading 2]

/-- Without a catch-up the block is announced to the second peer. -/
theorem announced_arrival :
    Along (next Samples.sample) (Heard Samples.sample) newcomer (arrival 0) ∧
      Along (next Samples.sample) (Announces Samples.sample) newcomer (arrival 0) ∧
      Samples.plainA.hash ∈ (run (next Samples.sample) newcomer (arrival 0)).chain.blockchain.blocks.map Block.hash := by
  have heard : Along (next Samples.sample) (Heard Samples.sample) newcomer (arrival 0) :=
    ⟨trivial,trivial,trivial,trivial⟩
  exact ⟨heard,announced_run Samples.sample 9000 ⟨1,0,0,9000,1⟩ 1000 Samples.testParams none [] (arrival 0) heard,
    by decide +kernel⟩

/-- As the end of a catch-up brings it in, the second peer hears nothing. -/
theorem silent_catchUp :
    ¬ Announces Samples.sample (run (next Samples.sample) newcomer (arrival 1)) (.cleaned 400000000 2000) := by
  decide +kernel

end ForgeChain.RunningNode
