import ForgeChain.Payloads
import Mathlib.Data.List.TakeWhile

/-!
The addresses a node has heard of, `src/network/AddressBook.cpp`. An address
gets in if the one who names it is trusted or if it is routable: a dotted quad
outside the private and reserved ranges, with a port. It is advertised once the
node has reached it. Times are readings of the steady clock in nanoseconds.
-/
namespace ForgeChain

/-! ### Dotted quads -/

/-- The number some digits stand for. -/
def decimalValue (text : Bytes) : Nat := text.foldl (fun value digit => value * 10 + (digit.toNat - 48)) 0

/-- The octet with this decimal form. -/
def readOctet (text : Bytes) : Option UInt8 :=
  if decimalValue text < 256 ∧ decimal (decimalValue text) = text then some (UInt8.ofNat (decimalValue text)) else none

/-- `inet_pton` for IPv4: four octets in decimal form with dots between them. -/
def inetPton (text : Bytes) : Option (UInt8 × UInt8 × UInt8 × UInt8) :=
  match text.splitOn 46 with
  | [a,b,c,d] => do
    let a ← readOctet a
    let b ← readOctet b
    let c ← readOctet c
    let d ← readOctet d
    some (a,b,c,d)
  | _ => none

/-- The text of an address. -/
def dottedQuad (a b c d : UInt8) : Bytes :=
  [46].intercalate [decimal a.toNat,decimal b.toNat,decimal c.toNat,decimal d.toNat]

/-- What a C function sees of a string. -/
def cString (text : Bytes) : Bytes := text.takeWhile (· ≠ 0)

/-- Decimal digits are single bytes. -/
theorem toNat_digit {c : Char} (digit : c.isDigit = true) :
    48 ≤ c.toNat ∧ c.toNat ≤ 57 ∧ (UInt8.ofNat c.toNat).toNat = c.toNat := by
  rw [Char.isDigit,Bool.and_eq_true,decide_eq_true_eq,decide_eq_true_eq] at digit
  have low : 48 ≤ c.toNat := UInt32.le_iff_toNat_le.mp digit.1
  have high : c.toNat ≤ 57 := UInt32.le_iff_toNat_le.mp digit.2
  exact ⟨low,high,UInt8.toNat_ofNat_of_lt' (lt_of_le_of_lt high (by decide))⟩

theorem decimalValue_decimal (n : Nat) : decimalValue (decimal n) = n := by
  have value : Nat.ofDigitChars 10 (Nat.toDigits 10 n) 0 = n := Nat.ofDigitChars_ten_toDigits
  rw [decimalValue,decimal,List.foldl_map]
  refine (List.foldl_ext _ _ 0 fun value c member => ?_).trans value
  rw [(toNat_digit (Nat.isDigit_of_mem_toDigits (by decide) (by decide) member)).2.2,Nat.mul_comm]
  rfl

theorem readOctet_iff {text : Bytes} {octet : UInt8} : readOctet text = some octet ↔ text = decimal octet.toNat := by
  unfold readOctet
  constructor
  · intro read
    split at read
    · case isTrue decimals =>
      cases read
      rw [UInt8.toNat_ofNat_of_lt' decimals.1,decimals.2]
    · cases read
  · rintro rfl
    rw [decimalValue_decimal,if_pos ⟨octet.toNat_lt,rfl⟩,UInt8.ofNat_toNat]

@[simp] theorem readOctet_decimal (octet : UInt8) : readOctet (decimal octet.toNat) = some octet :=
  readOctet_iff.mpr rfl

theorem decimal_digit {n : Nat} {c : UInt8} (member : c ∈ decimal n) : 48 ≤ c ∧ c ≤ 57 := by
  obtain ⟨digit,is_digit,rfl⟩ := List.mem_map.mp member
  obtain ⟨low,high,value⟩ := toNat_digit (Nat.isDigit_of_mem_toDigits (by decide) (by decide) is_digit)
  rw [UInt8.le_iff_toNat_le,UInt8.le_iff_toNat_le,value]
  exact ⟨low,high⟩

/-- The decimal form of an octet has neither dots nor zero bytes. -/
theorem decimal_plain (octet : UInt8) : (46 : UInt8) ∉ decimal octet.toNat ∧ (0 : UInt8) ∉ decimal octet.toNat := by
  constructor
  · intro dot
    exact absurd (decimal_digit dot).1 (by decide)
  · intro zero
    exact absurd (decimal_digit zero).1 (by decide)

/-- `inet_pton` accepts exactly the dotted quads. -/
theorem inetPton_iff {text : Bytes} {a b c d : UInt8} :
    inetPton text = some (a,b,c,d) ↔ text = dottedQuad a b c d := by
  constructor
  · intro read
    unfold inetPton at read
    split at read
    · case h_1 w x y z parts =>
      simp only [Option.bind_eq_bind,Option.bind_eq_some_iff,readOctet_iff,Option.some.injEq,Prod.mk.injEq] at read
      obtain ⟨_,rfl,_,rfl,_,rfl,_,rfl,rfl,rfl,rfl,rfl⟩ := read
      have whole : [46].intercalate (text.splitOn 46) = text := List.intercalate_splitOn 46
      rw [parts] at whole
      exact whole.symm
    · cases read
  · rintro rfl
    have parts : (dottedQuad a b c d).splitOn 46 =
        [decimal a.toNat,decimal b.toNat,decimal c.toNat,decimal d.toNat] := by
      refine List.splitOn_intercalate 46 ?_ (by simp)
      intro part member
      simp only [List.mem_cons,List.not_mem_nil,or_false] at member
      rcases member with rfl | rfl | rfl | rfl
      · exact (decimal_plain a).1
      · exact (decimal_plain b).1
      · exact (decimal_plain c).1
      · exact (decimal_plain d).1
    simp [inetPton,parts]

theorem cString_dottedQuad (a b c d : UInt8) : cString (dottedQuad a b c d) = dottedQuad a b c d := by
  refine List.takeWhile_eq_self_iff.mpr fun byte member => decide_eq_true fun zero => ?_
  subst zero
  have plain : ∀ octet : UInt8, (0 : UInt8) ∉ decimal octet.toNat := fun octet => (decimal_plain octet).2
  simp [dottedQuad,List.intercalate,List.intersperse,plain] at member

/-! ### The book -/

def maxEntries : Nat := 1000
def maxFailures : Nat := 10

/-- Seconds in ticks of the clock. -/
def seconds (n : Nat) : Nat := n * 1000000000

def baseBackoff : Nat := seconds 5
def maxBackoff : Nat := seconds 600

structure AddressEntry where
  address : PeerAddress
  nextTry : Nat
  failures : Nat
  succeeded : Bool
  inProgress : Bool
  deriving DecidableEq

structure AddressBook where
  book : List AddressEntry
  deriving DecidableEq

namespace AddressBook

def isRoutable (peerAddress : PeerAddress) : Bool :=
  if peerAddress.host = [] ∨ peerAddress.port = 0 then false
  else
    match inetPton (cString peerAddress.host) with
    | none => false
    | some (a,b,_,_) =>
      if a = 0 ∨ a = 127 then false
      else if a = 10 ∨ (a = 172 ∧ b ≥ 16 ∧ b ≤ 31) ∨ (a = 192 ∧ b = 168) then false
      else if a = 169 ∧ b = 254 then false
      else if a ≥ 224 then false
      else true

def empty : AddressBook := ⟨[]⟩

/-- The first entry of an address. -/
def find (book : AddressBook) (peerAddress : PeerAddress) : Option AddressEntry :=
  book.book.find? (·.address = peerAddress)

/-- Whether the address is new in the book, and the book with it; a new entry
    may be tried at once. -/
def add (book : AddressBook) (now : Nat) (peerAddress : PeerAddress) (trusted : Bool) : Bool × AddressBook :=
  if peerAddress.host = [] ∨ peerAddress.port = 0 then (false,book)
  else if ¬ trusted ∧ ¬ isRoutable peerAddress then (false,book)
  else if book.book.length ≥ maxEntries then (false,book)
  else
    match book.find peerAddress with
    | none => (true,⟨book.book ++ [⟨peerAddress,now,0,false,false⟩]⟩)
    | some _ => (false,book)

/-- The entry may be dialed now. -/
def Due (now : Nat) (entry : AddressEntry) : Prop :=
  entry.inProgress = false ∧ entry.failures < maxFailures ∧ entry.nextTry ≤ now

instance (now : Nat) (entry : AddressEntry) : Decidable (Due now entry) := inferInstanceAs (Decidable (_ ∧ _))

/-- Changes the first entry that has a property. -/
def change (property : AddressEntry → Bool) (changed : AddressEntry → AddressEntry) :
    List AddressEntry → List AddressEntry
  | [] => []
  | entry :: rest => if property entry then changed entry :: rest else entry :: change property changed rest

def selectCandidate (book : AddressBook) (now : Nat) : Option PeerAddress × AddressBook :=
  ((book.book.find? (Due now ·)).map AddressEntry.address,
    ⟨change (Due now ·) (fun entry => { entry with inProgress := true }) book.book⟩)

def markSuccess (book : AddressBook) (now : Nat) (peerAddress : PeerAddress) : AddressBook :=
  ⟨change (·.address = peerAddress)
    (fun entry => { entry with inProgress := false,succeeded := true,failures := 0,nextTry := now + baseBackoff })
    book.book⟩

/-- How long an address is left alone after that many failures. -/
def backoff (failures : Nat) : Nat := min (baseBackoff * 2 ^ min (failures - 1) 7) maxBackoff

def markFailure (book : AddressBook) (now : Nat) (peerAddress : PeerAddress) : AddressBook :=
  ⟨change (·.address = peerAddress)
    (fun entry => { entry with
      inProgress := false,failures := entry.failures + 1,nextTry := now + backoff (entry.failures + 1) })
    book.book⟩

def reachable (book : AddressBook) (includeLocal : Bool) : List PeerAddress :=
  (book.book.filter fun entry => entry.succeeded && (includeLocal || isRoutable entry.address)).map AddressEntry.address

end AddressBook
end ForgeChain
