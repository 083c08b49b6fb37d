import NoiseChannel.Digest
import NoiseChannel.Symmetric.CipherState

/-!
# Symmetric states

The chaining key, the handshake hash and the cipher of a handshake. The prologue is hashed lazily: a
fresh state stands in its prologue phase and takes sections of prologue into a running digest that
began with the hash; the first operation that uses hash, chaining key or cipher ends the phase and
makes that digest the hash.
-/

namespace NoiseChannel

/-- The part of a handshake's state that holds no Diffie–Hellman keys. -/
structure SymmetricState where
  digest : DigestKind
  /-- The cipher, its key and its counter. -/
  cipher : CipherState
  chainingKey : Bytes
  /-- The handshake hash; while the prologue phase lasts, the one before the prologue. -/
  hash : Bytes
  /-- The digest of hash and prologue in the making, while the prologue phase lasts. -/
  prologue : Option RunningDigest
deriving DecidableEq, Repr

namespace SymmetricState

/-- A protocol name filled up to 32 bytes, or its digest if it is longer. -/
def nameHash (digest : DigestKind) (name : Bytes) : Bytes :=
  if name.length ≤ DigestKind.length then name.padTo DigestKind.length else digest.digest name

/-- The state at the beginning of a handshake of the protocol with a given name. -/
def start (name : String) (cipher : CipherKind) (digest : DigestKind) : SymmetricState :=
  let h := nameHash digest (Bytes.ofString name)
  { digest
    cipher := .empty cipher
    chainingKey := h
    hash := h
    prologue := some ((RunningDigest.start digest).update h) }

/-- Takes one more section of prologue. Refused once the prologue phase is over. -/
def mixPrologue (s : SymmetricState) (piece : Bytes) : Except Error SymmetricState :=
  match s.prologue with
  | some running => .ok { s with prologue := some (running.update piece) }
  | none => .error .wrongState

/-- Whether the prologue phase still lasts. -/
def inPrologue (s : SymmetricState) : Bool := s.prologue.isSome

/-- Ends the prologue phase if it still lasts. -/
def endPrologue (s : SymmetricState) : SymmetricState :=
  match s.prologue with
  | some running => { s with hash := running.finish, prologue := none }
  | none => s

/-- Whether messages are encrypted yet. -/
def hasKey (s : SymmetricState) : Bool := s.cipher.hasKey

/-- The growth of a message when it is encrypted. -/
def overhead (s : SymmetricState) : Nat := s.cipher.overhead

/-- Mixes key material into the chaining key and derives a new cipher key. -/
def mixKey (s : SymmetricState) (material : Bytes) : SymmetricState :=
  let s := s.endPrologue
  let (chainingKey, key) := s.digest.hkdf2 s.chainingKey material
  { s with chainingKey, cipher := s.cipher.setKey key }

/-- Mixes data into the hash. -/
def mixHash (s : SymmetricState) (data : Bytes) : SymmetricState :=
  let s := s.endPrologue
  { s with hash := s.digest.digest (s.hash ++ data) }

/-- Mixes key material into chaining key and hash, and derives a new cipher key. -/
def mixKeyAndHash (s : SymmetricState) (material : Bytes) : SymmetricState :=
  let s := s.endPrologue
  let (chainingKey, toHash, key) := s.digest.hkdf3 s.chainingKey material
  let s := { s with chainingKey }.mixHash toHash
  { s with cipher := s.cipher.setKey key }

/-- Encrypts `plaintext` with the hash as associated data to the front of `area`, and mixes what was
written into the hash. The prologue phase ends even if the call is refused. -/
def encryptAndHash (s : SymmetricState) (plaintext area : Bytes) : Outcome SymmetricState :=
  let s := s.endPrologue
  let o := (s.cipher.encrypt s.hash plaintext area).mapState fun cipher => { s with cipher }
  match o.result with
  | .ok n => { o with state := o.state.mixHash (o.area.take n) }
  | .error _ => o

/-- Decrypts `ciphertext` with the hash as associated data to the front of `area`, and mixes the
ciphertext into the hash. The prologue phase ends even if the call is refused. -/
def decryptAndHash (s : SymmetricState) (ciphertext area : Bytes) : Outcome SymmetricState :=
  let s := s.endPrologue
  let o := (s.cipher.decrypt s.hash ciphertext area).mapState fun cipher => { s with cipher }
  match o.result with
  | .ok _ => { o with state := o.state.mixHash ciphertext }
  | .error _ => o

/-- The final hash and the two ciphers of the transport phase, counted from zero. -/
def split (s : SymmetricState) : Bytes × CipherState × CipherState :=
  let s := s.endPrologue
  let (first, second) := s.digest.hkdf2 s.chainingKey []
  let cipher := CipherState.empty s.cipher.kind
  (s.hash, cipher.setKey first, cipher.setKey second)

/-- Overwrites every secret with zeros and leaves the prologue phase. -/
def clear (s : SymmetricState) : SymmetricState :=
  { s with
    cipher := s.cipher.clear
    chainingKey := Bytes.zeros DigestKind.length
    hash := Bytes.zeros DigestKind.length
    prologue := none }

end SymmetricState

end NoiseChannel
