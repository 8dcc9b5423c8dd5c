import ForgeChain.Codec

/-!
Computations that may fail and that ask for space on the way. What a reader asks
for is held against the length of its input: readers that stay within it and do
not lengthen it can be put together (`Frugal.bind`, `Frugal.many`,
`Frugal.nested`).
-/
namespace Metering

/-- A result, if there is one, and the sizes that were asked for until then. -/
structure Metered (A : Type) where
  asked : List Nat
  result : Option A

variable {A B α : Type}

/-- What asks for nothing. -/
def free (result : Option A) : Metered A := ⟨[],result⟩

/-- Ask for a size. -/
def ask (size : Nat) : Metered Unit := ⟨[size],some ()⟩

instance : Monad Metered where
  pure a := free (some a)
  bind x next :=
    match x.result with
    | none => ⟨x.asked,none⟩
    | some a => ⟨x.asked ++ (next a).asked,(next a).result⟩

section
variable {x : Metered A} {next : A → Metered B} {size : Nat}

@[simp] theorem result_free (result : Option A) : (free result).result = result := rfl

@[simp] theorem result_pure (a : A) : (pure a : Metered A).result = some a := rfl

@[simp] theorem result_ask (size : Nat) : (ask size).result = some () := rfl

@[simp] theorem result_bind : (x >>= next).result = x.result.bind fun a => (next a).result := by
  show (match x.result with | none => (⟨x.asked,none⟩ : Metered B) | some a => _).result = _
  cases x.result <;> rfl

@[simp] theorem asked_free (result : Option A) : (free result).asked = [] := rfl

@[simp] theorem asked_pure (a : A) : (pure a : Metered A).asked = [] := rfl

@[simp] theorem asked_ask (size : Nat) : (ask size).asked = [size] := rfl

theorem mem_asked_bind :
    size ∈ (x >>= next).asked ↔ size ∈ x.asked ∨ ∃ a, x.result = some a ∧ size ∈ (next a).asked := by
  show size ∈ (match x.result with | none => (⟨x.asked,none⟩ : Metered B) | some a => _).asked ↔ _
  cases x.result <;> simp

end

/-! ### Staying within the input -/

/-- A decoder asks for no size above the length of its input. -/
def Within (decode : List α → Metered A) : Prop := ∀ input, ∀ size ∈ (decode input).asked, size ≤ input.length

/-- The same of a reader, whose rest is no longer than its input. -/
structure Frugal (read : List α → Metered (A × List α)) : Prop where
  within : Within read
  shorter : ∀ input x rest, (read input).result = some (x,rest) → rest.length ≤ input.length

section
variable {read : List α → Metered (A × List α)}

/-- What a reader leaves is handed on. -/
theorem Within.after (frugal : Frugal read) {next : A × List α → Metered B}
    (within : ∀ x, Within fun rest => next (x,rest)) : Within fun input => read input >>= next := by
  intro input size asked
  rcases mem_asked_bind.mp asked with early | ⟨⟨x,rest⟩,taken,late⟩
  · exact frugal.within input size early
  · exact Nat.le_trans (within x rest size late) (frugal.shorter input x rest taken)

theorem Frugal.bind (frugal : Frugal read) {next : A × List α → Metered (B × List α)}
    (frugal_next : ∀ x, Frugal fun rest => next (x,rest)) : Frugal fun input => read input >>= next where
  within := .after frugal fun x => (frugal_next x).within
  shorter := by
    intro input y left taken
    rw [result_bind] at taken
    obtain ⟨⟨x,rest⟩,first,second⟩ := Option.bind_eq_some_iff.mp taken
    exact Nat.le_trans ((frugal_next x).shorter rest y left second) (frugal.shorter input x rest first)

/-- A reader that asks for nothing. -/
theorem frugal_free {read : List α → Option (A × List α)}
    (shorter : ∀ input x rest, read input = some (x,rest) → rest.length ≤ input.length) :
    Frugal fun input => free (read input) where
  within := by simp [Within]
  shorter := shorter

theorem frugal_reads {read : List α → Option (A × List α)} {write : A → List α} {fits : A → Prop}
    (law : Codec.Reads read write fits) : Frugal fun input => free (read input) :=
  frugal_free fun input x rest taken => by simp [((law input x rest).mp taken).2]

theorem within_free (result : List α → Option A) : Within fun input => free (result input) := by
  simp [Within]

end

/-! ### Several values, and values in frames -/

/-- `count` values, one after the other. -/
def many (read : List α → Metered (A × List α)) : Nat → List α → Metered (List A × List α)
  | 0, rest => pure ([],rest)
  | count+1, rest => do
    let (x,rest) ← read rest
    let (more,rest) ← many read count rest
    pure (x :: more,rest)

theorem result_many (read : List α → Metered (A × List α)) (count : Nat) (rest : List α) :
    (many read count rest).result = Codec.many (fun input => (read input).result) count rest := by
  induction count generalizing rest with
  | zero => rfl
  | succ count ih => simp [many,Codec.many,ih]

theorem Frugal.many {read : List α → Metered (A × List α)} (frugal : Frugal read) (count : Nat) :
    Frugal (many read count) := by
  induction count with
  | zero => exact frugal_free fun input x rest taken => by cases taken; exact Nat.le_refl _
  | succ count ih =>
    refine frugal.bind fun x => ?_
    refine ih.bind fun more => ?_
    exact frugal_free fun input x rest taken => by cases taken; exact Nat.le_refl _

/-- A frame whose contents are decoded on their own. -/
def nested (frame : List α → Metered (List α × List α)) (decode : List α → Metered A) (rest : List α) :
    Metered (A × List α) := do
  let (contents,rest) ← frame rest
  let x ← decode contents
  pure (x,rest)

theorem result_nested (frame : List α → Metered (List α × List α)) (decode : List α → Metered A) (rest : List α) :
    (nested frame decode rest).result =
      Codec.nested (fun input => (frame input).result) (fun input => (decode input).result) rest := by
  simp [nested,Codec.nested]

theorem Frugal.nested {frame : List α → Metered (List α × List α)} {decode : List α → Metered A}
    (frugal : Frugal frame) (inside : ∀ input contents rest, (frame input).result = some (contents,rest) →
      contents.length ≤ input.length) (within : Within decode) : Frugal (nested frame decode) where
  within := by
    intro input size asked
    rcases mem_asked_bind.mp asked with early | ⟨⟨contents,rest⟩,taken,late⟩
    · exact frugal.within input size early
    · rcases mem_asked_bind.mp late with decoding | ⟨x,-,nothing⟩
      · exact Nat.le_trans (within contents size decoding) (inside input contents rest taken)
      · cases nothing
  shorter := by
    intro input x rest taken
    simp only [Metering.nested,result_bind,result_pure,Option.bind_eq_some_iff] at taken
    obtain ⟨⟨contents,left⟩,framed,y,-,same⟩ := taken
    cases same
    exact frugal.shorter input contents left framed

end Metering
