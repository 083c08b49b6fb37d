import NoiseChannel.Outcome
import NoiseChannel.Primitive.Curve25519
import NoiseChannel.Text

/-!
# Keys

Public keys, secret keys, key pairs and pre-shared keys. All are 32 bytes, which their types record;
a key pair's public half belongs to its secret half. Descriptions never show secret bytes.

Key pairs are made from a source of randomness: an endless sequence of bytes, handed to the call that
may draw from it. A call gives back what is left of its source, so how much it drew is visible.
-/

namespace NoiseChannel

/-! ## Sources of randomness -/

/-- An endless sequence of random bytes. -/
structure Entropy where
  /-- The byte at an index, counted from the next one to be dealt out. -/
  byte : Nat → UInt8

namespace Entropy

/-- The next `n` bytes. -/
def take (e : Entropy) (n : Nat) : Bytes := (List.range n).map e.byte

/-- What is left after the next `n` bytes have been dealt out. -/
def drop (e : Entropy) (n : Nat) : Entropy := ⟨fun i => e.byte (n + i)⟩

/-- The source that deals out zeros for ever. -/
def silent : Entropy := ⟨fun _ => 0⟩

/-- The source that deals out `bs` over and over; zeros if `bs` is empty. -/
def cycle (bs : Bytes) : Entropy :=
  let dealt := bs.toArray
  ⟨fun i => dealt.getD (i % dealt.size) 0⟩

@[simp] theorem length_take (e : Entropy) (n : Nat) : (e.take n).length = n := by
  simp [take]

end Entropy

/-! ## Keys -/

/-- A Curve25519 public key. -/
structure PublicKey where
  bytes : Bytes
  length_bytes : bytes.length = 32
deriving DecidableEq, Repr

/-- A Curve25519 secret key, as it was given or drawn. -/
structure SecretKey where
  bytes : Bytes
  length_bytes : bytes.length = 32
deriving DecidableEq, Repr

/-- A symmetric key that both parties hold beforehand. -/
structure PresharedKey where
  bytes : Bytes
  length_bytes : bytes.length = 32
deriving DecidableEq, Repr

/-- The result of key agreement. -/
structure SharedSecret where
  bytes : Bytes
deriving DecidableEq, Repr

namespace PublicKey

def length : Nat := 32

/-- The public key of 32 bytes; any other length is refused. -/
def ofBytes (bs : Bytes) : Except Error PublicKey :=
  if h : bs.length = 32 then .ok ⟨bs, h⟩ else .error .badKey

/-- The first four bytes in hexadecimal. -/
def describe (k : PublicKey) : String :=
  "PublicKey(" ++ Text.list ((k.bytes.take 4).map Bytes.hexOfByte) ++ ")"

end PublicKey

namespace PresharedKey

/-- The pre-shared key of 32 bytes; any other length is refused. -/
def ofBytes (bs : Bytes) : Except Error PresharedKey :=
  if h : bs.length = 32 then .ok ⟨bs, h⟩ else .error .badKey

def describe (_ : PresharedKey) : String := "PresharedKey([REDACTED])"

end PresharedKey

namespace SharedSecret

def describe (_ : SharedSecret) : String := "SharedSecret([REDACTED])"

end SharedSecret

namespace SecretKey

/-- The secret key of 32 bytes; any other length is refused. -/
def ofBytes (bs : Bytes) : Except Error SecretKey :=
  if h : bs.length = 32 then .ok ⟨bs, h⟩ else .error .badKey

/-- The public key that belongs to a secret key. -/
def publicKey (k : SecretKey) : PublicKey :=
  ⟨Curve25519.scalarMult k.bytes Curve25519.basePoint, Curve25519.length_scalarMult _ _⟩

/-- Key agreement with a peer's public key. The all-zero result, which peers with keys of small
order force, is refused. -/
def agree (k : SecretKey) (peer : PublicKey) : Except Error SharedSecret :=
  let secret := Curve25519.scalarMult k.bytes peer.bytes
  if secret = Bytes.zeros 32 then .error .badKey else .ok ⟨secret⟩

def describe (_ : SecretKey) : String := "StaticSecret([REDACTED])"

end SecretKey

/-- A secret key with the public key that belongs to it. -/
structure KeyPair where
  secret : SecretKey
  publicKey : PublicKey
  /-- The public half belongs to the secret half. -/
  publicKey_eq : publicKey = secret.publicKey
deriving DecidableEq, Repr

namespace KeyPair

/-- The pair of a secret key. -/
def ofSecret (k : SecretKey) : KeyPair := ⟨k, k.publicKey, rfl⟩

/-- The pair of 32 bytes of secret key material; any other length is refused. -/
def ofBytes (bs : Bytes) : Except Error KeyPair := (SecretKey.ofBytes bs).map ofSecret

/-- The pair made from the next 32 bytes of a source, and what is left of the source. -/
def generate (e : Entropy) : KeyPair × Entropy :=
  (ofSecret ⟨e.take 32, Entropy.length_take e 32⟩, e.drop 32)

/-- Only the public half is shown. -/
def describe (k : KeyPair) : String :=
  Text.record "KeyPair" [("public", k.publicKey.describe)] false

end KeyPair

end NoiseChannel
