import NoiseChannel.Transport

/-!
# The handshake as it is specified

The Noise specification describes a handshake by a machine that hashes the whole prologue and the
pre-message keys at once, and processes messages token by token on plain byte strings. This module
states that machine: key derivation by HMAC from the digest up, the symmetric state with its eager
operations, the patterns as a list of messages with their senders, and one step for each message
that is written or read. It knows nothing of areas lent by a caller, of phases or of growth
foretold; a step that cannot be taken has no result.
-/

namespace NoiseChannel.Specification

/-! ## Key derivation -/

/-- The HMAC of a message under a key of any length: a key longer than a block is hashed, a shorter
one is filled with zeros. -/
def hmac (kind : DigestKind) (key message : Bytes) : Bytes :=
  let key := if 64 < key.length then kind.digest key else key
  let block := key ++ List.replicate (64 - key.length) 0
  kind.digest (block.map (· ^^^ 0x5c) ++ kind.digest (block.map (· ^^^ 0x36) ++ message))

/-- A key of 65 bytes is longer than a block. -/
example : hmac .sha256 (List.replicate 65 0xaa) [1] =
    [38, 151, 133, 220, 195, 192, 7, 109, 160, 236, 237, 202, 193, 168, 117, 233,
      177, 102, 23, 217, 155, 37, 37, 186, 196, 73, 230, 195, 176, 49, 86, 87] := by
  decide +kernel

/-- Output `i` of the derivation from a chaining key and key material, counted from one. Each output
is authenticated with the one before and its own number. -/
def hkdf (kind : DigestKind) (ck material : Bytes) : Nat → Bytes
  | 0 => []
  | i + 1 => hmac kind (hmac kind ck material) (hkdf kind ck material i ++ [UInt8.ofNat (i + 1)])

/-! ## Symmetric states -/

/-- Cipher and hash objects of a handshake, with the specification's names. -/
structure Symmetric where
  digest : DigestKind
  cipher : CipherKind
  /-- The chaining key. -/
  ck : Bytes
  /-- The hash of everything so far. -/
  h : Bytes
  /-- The cipher key, once there is one. -/
  k : Option Bytes
  /-- The nonce, a number of 64 bits. -/
  n : UInt64

namespace Symmetric

/-- A name of at most 32 bytes is filled with zeros, a longer one is hashed. -/
def initial (name : String) (cipher : CipherKind) (digest : DigestKind) : Symmetric :=
  let name := Bytes.ofString name
  let h := if name.length ≤ 32 then name ++ Bytes.zeros (32 - name.length) else digest.digest name
  { digest, cipher, ck := h, h, k := none, n := 0 }

def setKey (s : Symmetric) (key : Bytes) : Symmetric := { s with k := some key, n := 0 }

def mixHash (s : Symmetric) (data : Bytes) : Symmetric :=
  { s with h := s.digest.digest (s.h ++ data) }

def mixKey (s : Symmetric) (material : Bytes) : Symmetric :=
  let output := hkdf s.digest s.ck material
  { s with ck := output 1 }.setKey (output 2)

def mixKeyAndHash (s : Symmetric) (material : Bytes) : Symmetric :=
  let output := hkdf s.digest s.ck material
  ({ s with ck := output 1 }.mixHash (output 2)).setKey (output 3)

/-- With a key the plaintext is sealed under the nonce, which goes on. The last nonce is reserved. -/
def encryptWithAd (s : Symmetric) (ad plaintext : Bytes) : Option (Bytes × Symmetric) :=
  match s.k with
  | none => some (plaintext, s)
  | some key =>
    if s.n = 0xffffffffffffffff then none
    else some (Aead.sealed s.cipher key s.n ad plaintext, { s with n := s.n + 1 })

def decryptWithAd (s : Symmetric) (ad ciphertext : Bytes) : Option (Bytes × Symmetric) :=
  match s.k with
  | none => some (ciphertext, s)
  | some key =>
    if s.n = 0xffffffffffffffff then none
    else
      match Aead.opened? s.cipher key s.n ad ciphertext with
      | some plaintext => some (plaintext, { s with n := s.n + 1 })
      | none => none

def encryptAndHash (s : Symmetric) (plaintext : Bytes) : Option (Bytes × Symmetric) :=
  (s.encryptWithAd s.h plaintext).map fun (ciphertext, s) => (ciphertext, s.mixHash ciphertext)

def decryptAndHash (s : Symmetric) (ciphertext : Bytes) : Option (Bytes × Symmetric) :=
  (s.decryptWithAd s.h ciphertext).map fun (plaintext, s) => (plaintext, s.mixHash ciphertext)

/-- The ciphers for the messages of the initiator and of the responder. -/
def split (s : Symmetric) : CipherState × CipherState :=
  let output := hkdf s.digest s.ck []
  (⟨s.cipher, some (output 1), 0⟩, ⟨s.cipher, some (output 2), 0⟩)

end Symmetric

/-! ## Patterns and protocols -/

/-- The public keys that are known before the first message, and whose they are. -/
def premessages : Pattern → List (Role × Token)
  | .xx => []
  | .ik => [(.responder, .s)]
  | .nnPsk0 => []
  | .xxFallback => [(.initiator, .e)]

def messages : Pattern → List (Role × List Token)
  | .xx => [(.initiator, [.e]), (.responder, [.e, .ee, .s, .es]), (.initiator, [.s, .se])]
  | .ik => [(.initiator, [.e, .es, .s, .ss]), (.responder, [.e, .ee, .se])]
  | .nnPsk0 => [(.initiator, [.psk, .e]), (.responder, [.e, .ee])]
  | .xxFallback => [(.responder, [.e, .ee, .s, .es]), (.initiator, [.s, .se])]

def isPsk : Pattern → Bool
  | .nnPsk0 => true
  | .xx | .ik | .xxFallback => false

def name (p : Pattern) (suite : Suite) : String :=
  "Noise_" ++ p.name ++ "_25519_" ++ suite.cipher.name ++ "_" ++ suite.digest.name

/-! ## The machine -/

/-- A party in a handshake. -/
structure Machine where
  role : Role
  psk : Option PresharedKey
  /-- Whether the pattern has a pre-shared key. -/
  isPsk : Bool
  symmetric : Symmetric
  /-- The keys `s`, `e`, `rs` and `re`. -/
  keys : KeySlots
  /-- The messages that are left, with their senders. -/
  messages : List (Role × List Token)

/-- Key agreement. Without one of the keys, or with the all-zero result, there is none. -/
def dh (pair : Option KeyPair) (key : Option PublicKey) : Option Bytes :=
  match pair, key with
  | some pair, some key =>
    let secret := Curve25519.scalarMult pair.secret.bytes key.bytes
    if secret = Bytes.zeros 32 then none else some secret
  | _, _ => none

namespace Machine

/-- An ephemeral key goes into the hash, and also into the key where there is a pre-shared key. -/
def mixEphemeral (m : Machine) (key : PublicKey) : Machine :=
  let symmetric := m.symmetric.mixHash key.bytes
  { m with symmetric := if m.isPsk then symmetric.mixKey key.bytes else symmetric }

/-- The public key that a pre-message of `owner` stands for. -/
def known (m : Machine) (owner : Role) : Token → Option PublicKey
  | .s => if owner = m.role then m.keys.localStatic.map KeyPair.publicKey else m.keys.remoteStatic
  | .e =>
    if owner = m.role then m.keys.localEphemeral.map KeyPair.publicKey else m.keys.remoteEphemeral
  | _ => none

/-- Takes in a public key that is known beforehand. -/
def mixPremessage (m : Machine) (known : Role × Token) : Option Machine :=
  (m.known known.1 known.2).map fun key =>
    if known.2 = .e then m.mixEphemeral key
    else { m with symmetric := m.symmetric.mixHash key.bytes }

/-- What a token that carries no key mixes in. -/
def mixSecret (m : Machine) (t : Token) : Option Machine :=
  let agreed (secret : Option Bytes) : Option Machine :=
    secret.map fun secret => { m with symmetric := m.symmetric.mixKey secret }
  match t, m.role with
  | .ee, _ => agreed (dh m.keys.localEphemeral m.keys.remoteEphemeral)
  | .es, .initiator => agreed (dh m.keys.localEphemeral m.keys.remoteStatic)
  | .es, .responder => agreed (dh m.keys.localStatic m.keys.remoteEphemeral)
  | .se, .initiator => agreed (dh m.keys.localStatic m.keys.remoteEphemeral)
  | .se, .responder => agreed (dh m.keys.localEphemeral m.keys.remoteStatic)
  | .ss, _ => agreed (dh m.keys.localStatic m.keys.remoteStatic)
  | .psk, _ =>
    m.psk.map fun key => { m with symmetric := m.symmetric.mixKeyAndHash key.bytes }
  | .e, _ | .s, _ => none

/-- Sends the ephemeral key in the clear. The pair is the one that has been set beforehand, else the
one that `entropy` gives. -/
def writeEphemeral (m : Machine) (buffer : Bytes) (entropy : Entropy) : Machine × Bytes :=
  let pair := m.keys.localEphemeral.getD (KeyPair.generate entropy).1
  let m := { m with keys := { m.keys with localEphemeral := some pair } }
  (m.mixEphemeral pair.publicKey, buffer ++ pair.publicKey.bytes)

/-- Sends the static key encrypted. -/
def writeStatic (m : Machine) (buffer : Bytes) : Option (Machine × Bytes) :=
  match m.keys.localStatic with
  | none => none
  | some pair =>
    (m.symmetric.encryptAndHash pair.publicKey.bytes).map fun (ciphertext, symmetric) =>
      ({ m with symmetric }, buffer ++ ciphertext)

/-- Processes a token of a message that is written: the machine, and the bytes of the message so
far. -/
def writeToken (entropy : Entropy) : Machine × Bytes → Token → Option (Machine × Bytes)
  | (m, buffer), .e => some (m.writeEphemeral buffer entropy)
  | (m, buffer), .s => m.writeStatic buffer
  | (m, buffer), t => (m.mixSecret t).map fun m => (m, buffer)

/-- Takes the peer's ephemeral key from the next 32 bytes. -/
def readEphemeral (m : Machine) (rest : Bytes) : Option (Machine × Bytes) :=
  if h : (rest.take 32).length = 32 then
    let key : PublicKey := ⟨rest.take 32, h⟩
    let m := { m with keys := { m.keys with remoteEphemeral := some key } }
    some (m.mixEphemeral key, rest.drop 32)
  else none

/-- Takes the peer's static key from the next 32 bytes, or from 16 more once there is a cipher key. -/
def readStatic (m : Machine) (rest : Bytes) : Option (Machine × Bytes) :=
  let size := if m.symmetric.k.isSome then 32 + 16 else 32
  if rest.length < size then none
  else
    match m.symmetric.decryptAndHash (rest.take size) with
    | none => none
    | some (bytes, symmetric) =>
      if h : bytes.length = 32 then
        let keys := { m.keys with remoteStatic := some ⟨bytes, h⟩ }
        some ({ m with symmetric, keys }, rest.drop size)
      else none

def readToken : Machine × Bytes → Token → Option (Machine × Bytes)
  | (m, rest), .e => m.readEphemeral rest
  | (m, rest), .s => m.readStatic rest
  | (m, rest), t => (m.mixSecret t).map fun m => (m, rest)

/-- Writes a message: its tokens, then the payload. -/
def writeMessage (m : Machine) (tokens : List Token) (payload : Bytes) (entropy : Entropy) :
    Option (Bytes × Machine) :=
  match tokens.foldlM (writeToken entropy) (m, []) with
  | none => none
  | some (m, buffer) =>
    (m.symmetric.encryptAndHash payload).map fun (ciphertext, symmetric) =>
      (buffer ++ ciphertext, { m with symmetric })

/-- Reads a message: its tokens, then the payload. -/
def readMessage (m : Machine) (tokens : List Token) (message : Bytes) : Option (Bytes × Machine) :=
  match tokens.foldlM readToken (m, message) with
  | none => none
  | some (m, rest) =>
    (m.symmetric.decryptAndHash rest).map fun (payload, symmetric) =>
      (payload, { m with symmetric })

/-- Writes the next message, if this party is its sender. Gives the message. -/
def write (m : Machine) (payload : Bytes) (entropy : Entropy) : Option (Bytes × Machine) :=
  match m.messages with
  | (sender, tokens) :: messages =>
    if sender = m.role then { m with messages }.writeMessage tokens payload entropy else none
  | [] => none

/-- Reads the next message, if the peer is its sender. Gives the payload. -/
def read (m : Machine) (message : Bytes) : Option (Bytes × Machine) :=
  match m.messages with
  | (sender, tokens) :: messages =>
    if sender = m.role then none else { m with messages }.readMessage tokens message
  | [] => none

end Machine

/-- The machine at the beginning: the prologue is hashed, then the keys that are known beforehand,
the initiator's before the responder's. -/
def initial (p : Pattern) (suite : Suite) (role : Role) (prologue : Bytes) (keys : KeySlots)
    (psk : Option PresharedKey) : Option Machine :=
  let symmetric := (Symmetric.initial (name p suite) suite.cipher suite.digest).mixHash prologue
  (premessages p).foldlM Machine.mixPremessage
    { role, psk, isPsk := isPsk p, symmetric, keys, messages := messages p }

/-! ## Runs -/

/-- What a party is to do next. -/
inductive Turn where
  /-- Write a message with a payload. An ephemeral pair is made from `entropy` if need be. -/
  | write (payload : Bytes) (entropy : Entropy)
  | read (message : Bytes)

def Machine.take (m : Machine) : Turn → Option (Bytes × Machine)
  | .write payload entropy => m.write payload entropy
  | .read message => m.read message

/-- What can be seen after a message. -/
structure Report where
  /-- The message that was written, or the payload that was read. -/
  output : Bytes
  keys : KeySlots
  /-- After the last message, the hash and the ciphers for sending and receiving. -/
  final : Option (Bytes × CipherState × CipherState)
deriving DecidableEq

/-- After the last message, the hash and the ciphers for sending and receiving. -/
def Machine.final (m : Machine) : Option (Bytes × CipherState × CipherState) :=
  match m.messages, m.role with
  | [], .initiator => some (m.symmetric.h, m.symmetric.split.1, m.symmetric.split.2)
  | [], .responder => some (m.symmetric.h, m.symmetric.split.2, m.symmetric.split.1)
  | _ :: _, _ => none

/-- What can be seen of a machine that takes turns, up to the first that it cannot take. Without the
keys that must be known beforehand it takes none. -/
def trace : Option Machine → List Turn → List (Option Report)
  | _, [] => []
  | m?, turn :: turns =>
    match m?.bind fun m => m.take turn with
    | none => [none]
    | some (output, m) => some ⟨output, m.keys, m.final⟩ :: trace (some m) turns

end NoiseChannel.Specification
