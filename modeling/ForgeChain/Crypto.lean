import ForgeChain.Bytes

/-!
What the program takes from OpenSSL and from the floating-point library, and
the functions of `src/crypto` over it. `EC_POINT_oct2point` is the only call of
`crypto::verify` that peer input can make fail.
-/
namespace ForgeChain

/-- An exception and its text. -/
inductive Exn where
  | outOfRange
  | runtimeError (what : String)
  deriving DecidableEq

/-- Functions the program calls and does not define. -/
structure Primitives where
  /-- SHA-256. -/
  sha256 : Bytes → HashBytes
  /-- Whether `EC_POINT_oct2point` reads a point of secp256k1 from the bytes. -/
  oct2point : Bytes → Bool
  /-- Whether `EVP_DigestVerify` accepts a message and a signature under a public key. -/
  digestVerify : Bytes → Bytes → Bytes → Bool
  /-- `std::llround(std::log2(expected / actual))`. -/
  llroundLog2 : UInt64 → UInt64 → Int

namespace Primitives
variable (P : Primitives)

def doubleSha256 (data : Bytes) : HashBytes := P.sha256 (P.sha256 data).bytes

/-- The bytes of "0123456789abcdef". -/
def hexChars : Bytes := [48,49,50,51,52,53,54,55,56,57,97,98,99,100,101,102]

def toHex (data : Bytes) : Bytes :=
  data.flatMap fun (byte : UInt8) =>
    [hexChars.getD ((byte >>> 4) &&& 0x0F).toNat 0,hexChars.getD (byte &&& 0x0F).toNat 0]

def hexDigitValue (c : UInt8) : Option UInt8 :=
  if 48 ≤ c ∧ c ≤ 57 then some (c - 48)
  else if 97 ≤ c ∧ c ≤ 102 then some (c - 97 + 10)
  else if 65 ≤ c ∧ c ≤ 70 then some (c - 65 + 10)
  else none

def fromHex : Bytes → Option Bytes
  | [] => some []
  | [_] => none
  | first :: second :: rest => do
    let high ← hexDigitValue first
    let low ← hexDigitValue second
    let bytes ← fromHex rest
    some ((high <<< 4 ||| low) :: bytes)

def deriveAddress (publicKey : Bytes) : Bytes := toHex (P.doubleSha256 publicKey).bytes

def verify (message signature publicKey : Bytes) : Except Exn Bool :=
  if P.oct2point publicKey then .ok (P.digestVerify message signature publicKey)
  else .error (.runtimeError "EC_POINT_oct2point failed")

end Primitives
end ForgeChain
