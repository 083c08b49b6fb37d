import NoiseChannel.Handshake.ProtocolName

/-!
# Protocols

The registered protocols: each with its name, a short alias for negotiation where it has one, its
pattern and suite, and the keys that each party must hold before the handshake starts.
-/

namespace NoiseChannel

/-- A set of kinds of keys. -/
structure KeyNeeds where
  localStatic : Bool := false
  remoteStatic : Bool := false
  psk : Bool := false
deriving DecidableEq, Repr

namespace KeyNeeds

/-- The kinds in either set. -/
def union (a b : KeyNeeds) : KeyNeeds :=
  ⟨a.localStatic || b.localStatic, a.remoteStatic || b.remoteStatic, a.psk || b.psk⟩

/-- Whether every kind in `b` is in `a`. -/
def contains (a b : KeyNeeds) : Bool :=
  (a.localStatic || !b.localStatic) && (a.remoteStatic || !b.remoteStatic) && (a.psk || !b.psk)

/-- The set as a number: one for the static pair, two for the peer's static key, four for the
pre-shared key. -/
def toBits (a : KeyNeeds) : Nat := a.localStatic.toNat + 2 * a.remoteStatic.toNat + 4 * a.psk.toNat

/-- The set with a given number. -/
def ofBits (n : Nat) : KeyNeeds := ⟨n.testBit 0, n.testBit 1, n.testBit 2⟩

end KeyNeeds

/-- A named protocol. -/
structure Protocol where
  name : String
  /-- The short name for negotiation. -/
  alias? : Option String := none
  pattern : Pattern
  suite : Suite
  /-- The keys that the initiator must hold. -/
  initiatorNeeds : KeyNeeds
  /-- The keys that the responder must hold. -/
  responderNeeds : KeyNeeds
deriving DecidableEq, Repr

namespace Protocol

/-- Protocols are told apart by their names. -/
def same (p q : Protocol) : Bool := p.name == q.name

def protocolName (p : Protocol) : ProtocolName := ⟨p.pattern, p.suite⟩

/-- The keys that the party in `role` must hold before the handshake starts. -/
def needs (p : Protocol) : Role → KeyNeeds
  | .initiator => p.initiatorNeeds
  | .responder => p.responderNeeds

/-- Name and alias. -/
def describe (p : Protocol) : String :=
  Text.record "ProtocolDescriptor"
    [("name", Text.quoted p.name), ("alias", Text.option Text.quoted p.alias?)] false

/-! ## The registry -/

def xxChaChaPolyBlake2s : Protocol where
  name := "Noise_XX_25519_ChaChaPoly_BLAKE2s"
  alias? := some "3"
  pattern := .xx
  suite := .chaChaPolyBlake2s
  initiatorNeeds := { localStatic := true }
  responderNeeds := { localStatic := true }

def xxChaChaPolySha256 : Protocol where
  name := "Noise_XX_25519_ChaChaPoly_SHA256"
  alias? := some "2"
  pattern := .xx
  suite := .chaChaPolySha256
  initiatorNeeds := { localStatic := true }
  responderNeeds := { localStatic := true }

def xxAesGcmSha256 : Protocol where
  name := "Noise_XX_25519_AESGCM_SHA256"
  pattern := .xx
  suite := .aesGcmSha256
  initiatorNeeds := { localStatic := true }
  responderNeeds := { localStatic := true }

def ikChaChaPolyBlake2s : Protocol where
  name := "Noise_IK_25519_ChaChaPoly_BLAKE2s"
  pattern := .ik
  suite := .chaChaPolyBlake2s
  initiatorNeeds := { localStatic := true, remoteStatic := true }
  responderNeeds := { localStatic := true }

def ikChaChaPolySha256 : Protocol where
  name := "Noise_IK_25519_ChaChaPoly_SHA256"
  pattern := .ik
  suite := .chaChaPolySha256
  initiatorNeeds := { localStatic := true, remoteStatic := true }
  responderNeeds := { localStatic := true }

def ikAesGcmSha256 : Protocol where
  name := "Noise_IK_25519_AESGCM_SHA256"
  pattern := .ik
  suite := .aesGcmSha256
  initiatorNeeds := { localStatic := true, remoteStatic := true }
  responderNeeds := { localStatic := true }

def nnPsk0ChaChaPolyBlake2s : Protocol where
  name := "Noise_NNpsk0_25519_ChaChaPoly_BLAKE2s"
  pattern := .nnPsk0
  suite := .chaChaPolyBlake2s
  initiatorNeeds := { psk := true }
  responderNeeds := { psk := true }

def nnPsk0ChaChaPolySha256 : Protocol where
  name := "Noise_NNpsk0_25519_ChaChaPoly_SHA256"
  pattern := .nnPsk0
  suite := .chaChaPolySha256
  initiatorNeeds := { psk := true }
  responderNeeds := { psk := true }

def nnPsk0AesGcmSha256 : Protocol where
  name := "Noise_NNpsk0_25519_AESGCM_SHA256"
  pattern := .nnPsk0
  suite := .aesGcmSha256
  initiatorNeeds := { psk := true }
  responderNeeds := { psk := true }

def xxFallbackChaChaPolyBlake2s : Protocol where
  name := "Noise_XXfallback_25519_ChaChaPoly_BLAKE2s"
  pattern := .xxFallback
  suite := .chaChaPolyBlake2s
  initiatorNeeds := { localStatic := true }
  responderNeeds := { localStatic := true }

def xxFallbackChaChaPolySha256 : Protocol where
  name := "Noise_XXfallback_25519_ChaChaPoly_SHA256"
  pattern := .xxFallback
  suite := .chaChaPolySha256
  initiatorNeeds := { localStatic := true }
  responderNeeds := { localStatic := true }

def xxFallbackAesGcmSha256 : Protocol where
  name := "Noise_XXfallback_25519_AESGCM_SHA256"
  pattern := .xxFallback
  suite := .aesGcmSha256
  initiatorNeeds := { localStatic := true }
  responderNeeds := { localStatic := true }

/-- Every registered protocol, in the order of the registry. -/
def registry : List Protocol := [
  xxChaChaPolyBlake2s, xxChaChaPolySha256, xxAesGcmSha256,
  ikChaChaPolyBlake2s, ikChaChaPolySha256, ikAesGcmSha256,
  nnPsk0ChaChaPolyBlake2s, nnPsk0ChaChaPolySha256, nnPsk0AesGcmSha256,
  xxFallbackChaChaPolyBlake2s, xxFallbackChaChaPolySha256, xxFallbackAesGcmSha256]

/-- The registered protocol with a given full name, compared component by component. -/
def find (name : String) : Except Error Protocol :=
  match ProtocolName.parse name with
  | .error e => .error e
  | .ok parsed =>
    match registry.find? fun p => p.protocolName = parsed with
    | some p => .ok p
    | none => .error .unknownProtocol

/-- The registered protocol with a given alias. -/
def ofAlias? (short : String) : Option Protocol := registry.find? fun p => p.alias? = some short

end Protocol

end NoiseChannel
