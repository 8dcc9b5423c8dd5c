import Mathlib.Data.List.Basic

/-!
Formats over a list of symbols. A reader takes a value off the front of its
input and returns it with the rest; a decoder takes the whole input. Each is
held to its writer by one equivalence, which gives both round trips: what was
written is read back, and nothing else is accepted.
-/
namespace Codec

variable {α β γ : Type}

/-- The reader accepts exactly what the writer gives for a value that fits. -/
abbrev Reads (read : List α → Option (β × List α)) (write : β → List α) (fits : β → Prop) : Prop :=
  ∀ input x rest, read input = some (x,rest) ↔ fits x ∧ input = write x ++ rest

/-- The same of a decoder, which leaves nothing of its input. -/
abbrev Decodes (decode : List α → Option β) (write : β → List α) (fits : β → Prop) : Prop :=
  ∀ input x, decode input = some x ↔ fits x ∧ input = write x

theorem Decodes.injective {decode : List α → Option β} {write : β → List α} {fits : β → Prop}
    (law : Decodes decode write fits) {one two : List α} {x : β}
    (first : decode one = some x) (second : decode two = some x) : one = two :=
  ((law one x).mp first).2.trans ((law two x).mp second).2.symm

/-- `count` values, one after the other. -/
def many (read : List α → Option (β × List α)) : Nat → List α → Option (List β × List α)
  | 0, rest => some ([],rest)
  | count+1, rest => do
    let (x,rest) ← read rest
    let (more,rest) ← many read count rest
    some (x :: more,rest)

theorem Reads.many {read : List α → Option (β × List α)} {write : β → List α} {fits : β → Prop}
    (law : Reads read write fits) (count : Nat) :
    Reads (many read count) (List.flatMap write) fun xs => xs.length = count ∧ ∀ x ∈ xs, fits x := by
  induction count with
  | zero =>
    intro input xs rest
    cases xs with
    | nil => simp [Codec.many]
    | cons x more => simp [Codec.many]
  | succ count more =>
    intro input xs rest
    simp only [Codec.many,Option.bind_eq_bind,Option.bind_eq_some_iff,Prod.exists,law _ _ _,more _ _ _]
    cases xs with
    | nil => simp
    | cons x xs =>
      simp only [Option.some.injEq,Prod.mk.injEq,List.cons.injEq,List.length_cons,List.flatMap_cons,
        List.forall_mem_cons,List.append_assoc]
      constructor
      · rintro ⟨_,_,⟨fit,rfl⟩,_,_,⟨⟨size,fits⟩,rfl⟩,⟨rfl,rfl⟩,rfl⟩
        exact ⟨⟨by omega,fit,fits⟩,rfl⟩
      · rintro ⟨⟨size,fit,fits⟩,rfl⟩
        exact ⟨x,_,⟨fit,rfl⟩,xs,rest,⟨⟨by omega,fits⟩,rfl⟩,⟨rfl,rfl⟩,rfl⟩

/-- A frame whose contents are decoded on their own. -/
def nested (frame : List α → Option (List α × List α)) (decode : List α → Option β) (rest : List α) :
    Option (β × List α) := do
  let (contents,rest) ← frame rest
  let x ← decode contents
  some (x,rest)

theorem Reads.nested {frame : List α → Option (List α × List α)} {wrap : List α → List α} {short : List α → Prop}
    {decode : List α → Option β} {write : β → List α} {fits : β → Prop}
    (outer : Reads frame wrap short) (inner : Decodes decode write fits) :
    Reads (nested frame decode) (fun x => wrap (write x)) fun x => short (write x) ∧ fits x := by
  intro input x rest
  simp only [Codec.nested,Option.bind_eq_bind,Option.bind_eq_some_iff,Prod.exists,outer _ _ _,inner _ _,
    Option.some.injEq,Prod.mk.injEq]
  constructor
  · rintro ⟨_,_,⟨enough,rfl⟩,_,⟨fit,rfl⟩,rfl,rfl⟩
    exact ⟨⟨enough,fit⟩,rfl⟩
  · rintro ⟨⟨enough,fit⟩,rfl⟩
    exact ⟨write x,rest,⟨enough,rfl⟩,x,⟨fit,rfl⟩,rfl,rfl⟩

/-- A reader that has to use up its input. -/
def whole (read : List α → Option (β × List α)) (input : List α) : Option β := do
  let (x,rest) ← read input
  if rest = [] then some x else none

theorem whole_eq_some {read : List α → Option (β × List α)} {input : List α} {x : β} :
    whole read input = some x ↔ read input = some (x,[]) := by
  simp only [whole,Option.bind_eq_bind,Option.bind_eq_some_iff,Prod.exists]
  constructor
  · rintro ⟨y,rest,taken,accepted⟩
    split at accepted
    · case isTrue empty =>
      cases accepted
      rw [taken,empty]
    · cases accepted
  · intro taken
    exact ⟨x,[],taken,by simp⟩

theorem Reads.whole {read : List α → Option (β × List α)} {write : β → List α} {fits : β → Prop}
    (law : Reads read write fits) : Decodes (whole read) write fits := by
  intro input x
  rw [whole_eq_some,law,List.append_nil]

/-- Of two accepted inputs none continues the other. -/
theorem Reads.prefix_free {read : List α → Option (β × List α)} {write : β → List α} {fits : β → Prop}
    (law : Reads read write fits) {input extra : List α} {x y : β} (front : Codec.whole read input = some x)
    (all : Codec.whole read (input ++ extra) = some y) : extra = [] := by
  obtain ⟨fit,rfl⟩ := (law.whole _ _).mp front
  have first := (law (write x ++ extra) x extra).mpr ⟨fit,rfl⟩
  rw [whole_eq_some,first] at all
  cases all
  rfl

end Codec
