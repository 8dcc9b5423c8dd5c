import ForgeChain.Codec
import Mathlib.Tactic.Ring

/-!
Byte strings and their little-endian numbers. A decoder reads from the front of
what is left of its payload: every read either fails, because fewer bytes are
left than it needs, or returns what it read and the rest.
-/
namespace ForgeChain
open Codec

/-- `std::vector<uint8_t>`, and `std::string`, which holds bytes as well. -/
abbrev Bytes := List UInt8

/-- The `n` low bytes of `x`, lowest first. -/
def leBytes : Nat → Nat → Bytes
  | 0, _ => []
  | n+1, x => UInt8.ofNat x :: leBytes n (x / 256)

/-- The number that bytes stand for, lowest first. -/
def leNat : Bytes → Nat
  | [] => 0
  | b :: rest => b.toNat + 256 * leNat rest

@[simp] theorem leBytes_length : ∀ n x, (leBytes n x).length = n
  | 0, _ => rfl
  | n+1, x => by simp [leBytes,leBytes_length n]

theorem leNat_leBytes : ∀ n x, leNat (leBytes n x) = x % 256 ^ n
  | 0, x => by simp [leBytes,leNat,Nat.mod_one]
  | n+1, x => by
    have low : (UInt8.ofNat x).toNat = x % 256 := by simp
    rw [leBytes,leNat,leNat_leBytes n,low,pow_succ,mul_comm (256 ^ n),Nat.mod_mul]

/-- Numbers below `256 ^ n` are told apart by their `n` low bytes. -/
theorem leBytes_inj {n x y : Nat} (hx : x < 256 ^ n) (hy : y < 256 ^ n) (same : leBytes n x = leBytes n y) :
    x = y := by
  have := congrArg leNat same
  rwa [leNat_leBytes,leNat_leBytes,Nat.mod_eq_of_lt hx,Nat.mod_eq_of_lt hy] at this

theorem leNat_lt : ∀ word : Bytes, leNat word < 256 ^ word.length
  | [] => by simp [leNat]
  | b :: rest => by
    have low := b.toNat_lt
    have high := leNat_lt rest
    rw [leNat,List.length_cons,pow_succ]
    omega

theorem leBytes_leNat : ∀ word : Bytes, leBytes word.length (leNat word) = word
  | [] => rfl
  | b :: rest => by
    have low := b.toNat_lt
    have head : UInt8.ofNat (b.toNat + 256 * leNat rest) = b := by
      rw [← UInt8.toNat_inj,UInt8.toNat_ofNat']
      omega
    have tail : (b.toNat + 256 * leNat rest) / 256 = leNat rest := by omega
    rw [List.length_cons,leNat,leBytes,head,tail,leBytes_leNat rest]

/-- A number below `256 ^ n` is the one that `n` bytes stand for if they are its low bytes. -/
theorem eq_leBytes {word : Bytes} {x : Nat} (fits : x < 256 ^ word.length) :
    leNat word = x ↔ word = leBytes word.length x := by
  constructor
  · rintro rfl
    exact (leBytes_leNat word).symm
  · intro same
    rw [same,leNat_leBytes,Nat.mod_eq_of_lt fits]

def le16 (x : UInt16) : Bytes := leBytes 2 x.toNat
def le32 (x : UInt32) : Bytes := leBytes 4 x.toNat
def le64 (x : UInt64) : Bytes := leBytes 8 x.toNat

@[simp] theorem le16_length (x : UInt16) : (le16 x).length = 2 := leBytes_length 2 _
@[simp] theorem le32_length (x : UInt32) : (le32 x).length = 4 := leBytes_length 4 _
@[simp] theorem le64_length (x : UInt64) : (le64 x).length = 8 := leBytes_length 8 _

theorem le32_inj {x y : UInt32} (same : le32 x = le32 y) : x = y :=
  UInt32.toNat_inj.mp (leBytes_inj x.toNat_lt y.toNat_lt same)

theorem le64_inj {x y : UInt64} (same : le64 x = le64 y) : x = y :=
  UInt64.toNat_inj.mp (leBytes_inj x.toNat_lt y.toNat_lt same)

/-- The first `n` bytes and what follows them. -/
def readBytes (n : Nat) (rest : Bytes) : Option (Bytes × Bytes) :=
  if rest.length < n then none else some (rest.take n,rest.drop n)

theorem reads_bytes (n : Nat) : Reads (readBytes n) id fun bytes => bytes.length = n := by
  intro input bytes rest
  unfold readBytes
  split
  · case isTrue short =>
    constructor
    · intro none
      cases none
    · rintro ⟨size,rfl⟩
      simp at short
      omega
  · case isFalse enough =>
    simp only [Option.some.injEq,Prod.mk.injEq,id]
    constructor
    · rintro ⟨rfl,rfl⟩
      exact ⟨by simp; omega,(List.take_append_drop n input).symm⟩
    · rintro ⟨rfl,rfl⟩
      simp

def readU8 : Bytes → Option (UInt8 × Bytes)
  | [] => none
  | byte :: rest => some (byte,rest)

def readU16 (rest : Bytes) : Option (UInt16 × Bytes) := do
  let (word,rest) ← readBytes 2 rest
  some (UInt16.ofNat (leNat word),rest)

def readU32 (rest : Bytes) : Option (UInt32 × Bytes) := do
  let (word,rest) ← readBytes 4 rest
  some (UInt32.ofNat (leNat word),rest)

def readU64 (rest : Bytes) : Option (UInt64 × Bytes) := do
  let (word,rest) ← readBytes 8 rest
  some (UInt64.ofNat (leNat word),rest)

theorem reads_u8 : Reads readU8 (fun byte => [byte]) fun _ => True := by
  intro input byte rest
  cases input with
  | nil => simp [readU8]
  | cons head tail => simp [readU8,eq_comm]

/-- A word of `n` bytes, turned into a number of a type of that size. -/
theorem reads_word {N : Type} (n : Nat) (ofNat : Nat → N) (toNat : N → Nat) (fits : ∀ x, toNat x < 256 ^ n)
    (exact : ∀ x y, y < 256 ^ n → (ofNat y = x ↔ y = toNat x)) :
    Reads (fun input => (readBytes n input).bind fun (word,rest) => some (ofNat (leNat word),rest))
      (fun x => leBytes n (toNat x)) fun _ => True := by
  intro input x rest
  simp only [Option.bind_eq_some_iff,Prod.exists,reads_bytes n _ _ _,id,Option.some.injEq,Prod.mk.injEq,true_and]
  constructor
  · rintro ⟨word,_,⟨rfl,rfl⟩,same,rfl⟩
    rw [exact x _ (leNat_lt word),eq_leBytes (fits x)] at same
    rw [← same]
  · rintro rfl
    refine ⟨_,rest,⟨leBytes_length n _,rfl⟩,?_,rfl⟩
    rw [leNat_leBytes,Nat.mod_eq_of_lt (fits x),exact x _ (fits x)]

theorem reads_u16 : Reads readU16 le16 fun _ => True :=
  reads_word 2 UInt16.ofNat UInt16.toNat UInt16.toNat_lt fun x y small => by
    rw [← UInt16.toNat_inj,UInt16.toNat_ofNat_of_lt' small]

theorem reads_u32 : Reads readU32 le32 fun _ => True :=
  reads_word 4 UInt32.ofNat UInt32.toNat UInt32.toNat_lt fun x y small => by
    rw [← UInt32.toNat_inj,UInt32.toNat_ofNat_of_lt' small]

theorem reads_u64 : Reads readU64 le64 fun _ => True :=
  reads_word 8 UInt64.ofNat UInt64.toNat UInt64.toNat_lt fun x y small => by
    rw [← UInt64.toNat_inj,UInt64.toNat_ofNat_of_lt' small]

/-- A 32-bit length and as many bytes. -/
def readSized (rest : Bytes) : Option (Bytes × Bytes) := do
  let (len,rest) ← readU32 rest
  readBytes len.toNat rest

/-- What a sized field is on the wire; the length is cut to 32 bits. -/
def sized (field : Bytes) : Bytes := le32 (UInt32.ofNat field.length) ++ field

theorem reads_sized : Reads readSized sized fun field => field.length < 2 ^ 32 := by
  intro input field rest
  simp only [readSized,Option.bind_eq_bind,Option.bind_eq_some_iff,Prod.exists,reads_u32 _ _ _,reads_bytes _ _ _ _,
    sized,id,true_and]
  constructor
  · rintro ⟨len,_,rfl,size,rfl⟩
    rw [size,UInt32.ofNat_toNat]
    exact ⟨len.toNat_lt,by simp⟩
  · rintro ⟨short,rfl⟩
    exact ⟨UInt32.ofNat field.length,_,by simp,(UInt32.toNat_ofNat_of_lt' short).symm,rfl⟩

/-- A 32-bit count and as many values. -/
theorem reads_counted {β : Type} {read : Bytes → Option (β × Bytes)} {write : β → Bytes} {fits : β → Prop}
    (law : Reads read write fits) :
    Reads (fun input => (readU32 input).bind fun (count,rest) => many read count.toNat rest)
      (fun xs => le32 (UInt32.ofNat xs.length) ++ xs.flatMap write)
      fun xs => xs.length < 2 ^ 32 ∧ ∀ x ∈ xs, fits x := by
  intro input xs rest
  simp only [Option.bind_eq_some_iff,Prod.exists,reads_u32 _ _ _,law.many _ _ _ _,true_and]
  constructor
  · rintro ⟨count,_,rfl,⟨size,fit⟩,rfl⟩
    rw [size,UInt32.ofNat_toNat]
    exact ⟨⟨count.toNat_lt,fit⟩,by simp⟩
  · rintro ⟨⟨short,fit⟩,rfl⟩
    exact ⟨UInt32.ofNat xs.length,_,by simp,⟨(UInt32.toNat_ofNat_of_lt' short).symm,fit⟩,rfl⟩

/-- `std::array<uint8_t, 32>`. -/
structure HashBytes where
  bytes : Bytes
  size : bytes.length = 32
  deriving DecidableEq

@[ext] theorem HashBytes.ext {a b : HashBytes} (same : a.bytes = b.bytes) : a = b := by
  cases a; cases b; cases same; rfl

/-- `HashBytes{}`: all bytes 0. -/
def HashBytes.zero : HashBytes := ⟨List.replicate 32 0,by simp⟩

def readHash (rest : Bytes) : Option (HashBytes × Bytes) :=
  if enough : rest.length < 32 then none
  else some (⟨rest.take 32,by simp; omega⟩,rest.drop 32)

theorem reads_hash : Reads readHash HashBytes.bytes fun _ => True := by
  intro input hash rest
  unfold readHash
  split
  · case isTrue short =>
    constructor
    · intro none
      cases none
    · rintro ⟨-,rfl⟩
      have := hash.size
      simp at short
      omega
  · case isFalse enough =>
    simp only [Option.some.injEq,Prod.mk.injEq,HashBytes.ext_iff,true_and]
    constructor
    · rintro ⟨same,rfl⟩
      rw [← same,List.take_append_drop]
    · rintro rfl
      simp [← hash.size]

/-- The bytes of an ASCII text. -/
def text (ascii : String) : Bytes := ascii.toList.map fun c => UInt8.ofNat c.toNat

/-- `std::to_string` of an unsigned number. -/
def decimal (n : Nat) : Bytes := (Nat.toDigits 10 n).map fun digit => UInt8.ofNat digit.toNat

end ForgeChain
