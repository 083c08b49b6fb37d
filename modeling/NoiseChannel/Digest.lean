import NoiseChannel.Primitive.Blake2s
import NoiseChannel.Primitive.Sha256

/-!
# Digests

The two digests that a suite may name, both of 32 bytes, and running digests that take their input
in pieces: the result depends on nothing but the concatenation of the pieces. On a digest rest HMAC
as in RFC 2104, for keys of 32 bytes, and the derivation of two or three keys from a chaining key
and key material: the material is extracted into a temporary key, under which a chain of numbered
blocks is authenticated.
-/

namespace NoiseChannel

/-! ## The two digests -/

/-- A digest. -/
inductive DigestKind where
  /-- BLAKE2s without a key. -/
  | blake2s
  /-- SHA-256. -/
  | sha256
deriving DecidableEq, Repr

namespace DigestKind

def all : List DigestKind := [blake2s, sha256]

def name : DigestKind → String
  | blake2s => "BLAKE2s"
  | sha256 => "SHA256"

def describe : DigestKind → String
  | blake2s => "Blake2s"
  | sha256 => "Sha256"

/-- The digest with a given component in protocol names. -/
def ofName? (s : String) : Option DigestKind := all.find? fun kind => kind.name = s

def length : Nat := 32

/-- The length of the blocks that both digests work on. -/
def blockLength : Nat := 64

/-- The digest of a message. -/
def digest : DigestKind → Bytes → Bytes
  | blake2s => Blake2s.digest
  | sha256 => Sha256.digest

@[simp] theorem length_digest (kind : DigestKind) (message : Bytes) :
    (kind.digest message).length = 32 := by
  cases kind <;> simp [digest]

end DigestKind

/-! ## Running digests -/

/-- A digest in the making: the input taken so far. -/
structure RunningDigest where
  /-- The digest to be made. -/
  kind : DigestKind
  /-- The concatenation of the pieces taken so far. -/
  taken : Bytes
deriving DecidableEq, Repr

namespace RunningDigest

/-- A running digest that has taken nothing yet. -/
def start (kind : DigestKind) : RunningDigest := ⟨kind, []⟩

/-- Takes one more piece. -/
def update (d : RunningDigest) (piece : Bytes) : RunningDigest :=
  { d with taken := d.taken ++ piece }

/-- The digest of everything taken so far. -/
def finish (d : RunningDigest) : Bytes := d.kind.digest d.taken

end RunningDigest

namespace DigestKind

/-! ## Keyed digests and key derivation -/

/-- A key filled with zeros to one block, with `mask` mixed into every byte. -/
def maskedKey (mask : UInt8) (key : Bytes) : Bytes :=
  Bytes.xor (key.padTo blockLength) (List.replicate blockLength mask)

/-- The HMAC of `message` under `key`, which is no longer than a block. -/
def hmac (kind : DigestKind) (key message : Bytes) : Bytes :=
  kind.digest (maskedKey 0x5c key ++ kind.digest (maskedKey 0x36 key ++ message))

/-- Two keys from a chaining key and key material. -/
def hkdf2 (kind : DigestKind) (chainingKey material : Bytes) : Bytes × Bytes :=
  let extracted := kind.hmac chainingKey material
  let first := kind.hmac extracted [1]
  let second := kind.hmac extracted (first ++ [2])
  (first, second)

/-- Three keys from a chaining key and key material. -/
def hkdf3 (kind : DigestKind) (chainingKey material : Bytes) : Bytes × Bytes × Bytes :=
  let extracted := kind.hmac chainingKey material
  let first := kind.hmac extracted [1]
  let second := kind.hmac extracted (first ++ [2])
  let third := kind.hmac extracted (second ++ [3])
  (first, second, third)

@[simp] theorem length_hmac (kind : DigestKind) (key message : Bytes) :
    (kind.hmac key message).length = 32 := by
  simp [hmac]

end DigestKind

end NoiseChannel
