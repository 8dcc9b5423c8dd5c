import ForgeChain.Custody
import ForgeChain.Origins

/-!
What `Blockchain::is_valid` checks, as a fact about running nodes. Neither the
catch-up nor a reorganization calls it, and `adopt_branch` leaves out most of the
checks of `submit_block`; but blocks that are read off messages have the hash of
what they say, and every way into the chain puts a block on its parent. So the
check never fails, whatever a node hears, mines and is told (`isValid_run`).
-/
namespace ForgeChain.Integrity
open Runs RunningNode Custody Origins

/-- The loop of `is_valid` from a block on. -/
def validFrom (P : Primitives) : Block → List Block → Bool
  | _, [] => true
  | previous, current :: rest =>
    if current.computeHash P ≠ current.hash then false
    else if previous.hash ≠ current.prevHash then false
    else validFrom P current rest

def isValid (P : Primitives) (chain : Blockchain) : Bool :=
  match chain.blocks with
  | [] => true
  | first :: rest => validFrom P first rest

section
variable {P : Primitives} {chain : Blockchain} {n : RunningNode}

/-- Every block stands on its parent. -/
def Chained (chain : Blockchain) : Prop := chain.blocks.IsChain fun parent block => block.prevHash = parent.hash

theorem validFrom_of_chained {first : Block} {rest : List Block}
    (chained : (first :: rest).IsChain fun parent block => block.prevHash = parent.hash)
    (hashed : ∀ block ∈ rest, block.hash = block.computeHash P) : validFrom P first rest = true := by
  induction rest generalizing first with
  | nil => rfl
  | cons current rest ih =>
    obtain ⟨parent,later⟩ := List.isChain_cons_cons.mp chained
    obtain ⟨hash,others⟩ := List.forall_mem_cons.mp hashed
    rw [validFrom,if_neg (not_not.mpr hash.symm),if_neg (not_not.mpr parent.symm)]
    exact ih later others

theorem isValid_of_chained (chained : Chained chain) (hashed : ∀ block ∈ chain.blocks, block.hash = block.computeHash P) :
    isValid P chain = true := by
  rw [isValid]
  rw [Chained] at chained
  split
  · rfl
  · case h_2 first rest blocks =>
    rw [blocks] at chained hashed
    exact validFrom_of_chained chained (List.forall_mem_cons.mp hashed).2

theorem growing_chained (K : Block → Prop) : Growing K Chained where
  added := by
    intro chain block chained _ parent
    refine List.isChain_append.mpr ⟨chained,List.isChain_singleton _,fun last is_last new is_new => ?_⟩
    cases is_new
    rw [List.getLast?_eq_getLast_of_ne_nil chain.nonempty] at is_last
    cases is_last
    exact parent
  cut chained height := chained.take _

/-- Blocks with the hash of what they say are passed on as such, and what is read
    off a message is one. -/
theorem kinds_hashed (P : Primitives) : Kinds (fun block => block.hash = block.computeHash P) (fun _ => True) where
  stamped _ hashed := hashed
  contents _ _ _ := trivial

theorem readable_hashed (message : Message) :
    Readable P (fun block => block.hash = block.computeHash P) (fun _ => True) message :=
  ⟨fun _ _ read => (whole_of_deserialize read).hash,fun _ _ _ => trivial⟩

/-- A node whose chain passes. -/
structure Intact (P : Primitives) (n : RunningNode) : Prop where
  regular : Regular P n.chain
  keeps : Keeps (fun block => block.hash = block.computeHash P) (fun _ => True) n
  chained : Chained n.chain.blockchain

theorem Intact.reached (intact : Intact P n) {input : Input}
    (reaches : Reaches P (fun block => block.hash = block.computeHash P) (fun _ => True) input) :
    Intact P (n.next P input) := by
  refine ⟨regular_next intact.regular input,intact.keeps.next (kinds_hashed P) intact.regular reaches,?_⟩
  rcases intact.keeps.call reaches with same | ⟨call,⟨online,brings⟩,after⟩
  · exact same ▸ intact.chained
  · exact after ▸ (growing_chained _).after intact.keeps.holds intact.regular online brings intact.chained

/-- A mined block with another hash is refused. -/
theorem mined_refused {reading : Reading} {block : Block} (other : block.hash ≠ block.computeHash P) :
    n.next P (.mined reading block) = n := by
  have refused : n.chain.submitBlock P reading block = (.ok .rejected,n.chain) :=
    submitBlock_neither (fun on => other on.proper.hash) (fun off => other off.proper.hash)
  simp only [next,react,submitBlock,refused]

theorem Intact.next (intact : Intact P n) (input : Input) : Intact P (n.next P input) := by
  cases input with
  | received socket message reading now => exact intact.reached (readable_hashed message)
  | mined reading block =>
    by_cases hashed : block.hash = block.computeHash P
    · exact intact.reached hashed
    · rw [mined_refused hashed]
      exact intact
  | _ => exact intact.reached trivial

end
end ForgeChain.Integrity
