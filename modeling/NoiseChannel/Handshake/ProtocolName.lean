import NoiseChannel.Aead
import NoiseChannel.Digest
import NoiseChannel.Handshake.Pattern

/-!
# Protocol names

A protocol name has five components joined by underscores: the word `Noise`, the pattern, the curve
`25519`, the cipher and the digest. `render` writes a name and `parse` reads exactly what `render`
writes.
-/

namespace NoiseChannel

/-- The cipher and the digest of a protocol. The curve is always Curve25519. -/
structure Suite where
  cipher : CipherKind
  digest : DigestKind
deriving DecidableEq, Repr

namespace Suite

/-- ChaCha20-Poly1305 with BLAKE2s. -/
def chaChaPolyBlake2s : Suite := ⟨.chaChaPoly, .blake2s⟩

/-- ChaCha20-Poly1305 with SHA-256. -/
def chaChaPolySha256 : Suite := ⟨.chaChaPoly, .sha256⟩

/-- AES-256-GCM with SHA-256. -/
def aesGcmSha256 : Suite := ⟨.aesGcm, .sha256⟩

/-- Cipher and digest. -/
def describe (s : Suite) : String :=
  Text.record "CipherSuite" [("cipher", s.cipher.describe), ("hash", s.digest.describe)] true

end Suite

/-- The components of a protocol name that vary. -/
structure ProtocolName where
  pattern : Pattern
  suite : Suite
deriving DecidableEq, Repr

namespace ProtocolName

/-- The component that begins every name. -/
def family : String := "Noise"

/-- The component that names the curve. -/
def curve : String := "25519"

/-- The five components of a name. -/
def components (n : ProtocolName) : List String :=
  [family, n.pattern.name, curve, n.suite.cipher.name, n.suite.digest.name]

/-- The written name. -/
def render (n : ProtocolName) : String := String.intercalate "_" n.components

/-- The parts of a text between underscores. -/
def parts (s : String) : List String := (s.toList.splitOn '_').map String.ofList

/-- Reads a name. -/
def parse (s : String) : Except Error ProtocolName :=
  match parts s with
  | [first, pattern, third, cipher, digest] =>
    if first = family ∧ third = curve then
      match Pattern.ofName? pattern, CipherKind.ofName? cipher, DigestKind.ofName? digest with
      | some pattern, some cipher, some digest => .ok ⟨pattern, ⟨cipher, digest⟩⟩
      | _, _, _ => .error .unknownProtocol
    else .error .unknownProtocol
  | _ => .error .unknownProtocol

/-- The written name, marked as a protocol name. -/
def describe (n : ProtocolName) : String := "ProtocolName(" ++ n.render ++ ")"

end ProtocolName

end NoiseChannel
