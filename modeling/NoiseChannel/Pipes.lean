import NoiseChannel.Handshake.Message

/-!
# Noise Pipes

A composite of two protocols with one suite: IK is tried first, and if the initiator holds a wrong
static key of the responder, both continue with XXfallback and the ephemeral key that the initiator
has sent already.
-/

namespace NoiseChannel

/-- A composite of an abbreviated protocol and the one to fall back to. -/
structure Pipes where
  /-- The name. -/
  name : String
  /-- The protocol tried first, of pattern IK. -/
  abbreviated : Protocol
  /-- The protocol continued with, of pattern XXfallback. -/
  fallback : Protocol
deriving DecidableEq, Repr

namespace Pipes

/-- The composite with ChaCha20-Poly1305 and BLAKE2s. -/
def chaChaPolyBlake2s : Pipes where
  name := "NoisePipes_25519_ChaChaPoly_BLAKE2s"
  abbreviated := .ikChaChaPolyBlake2s
  fallback := .xxFallbackChaChaPolyBlake2s

/-- The composite with ChaCha20-Poly1305 and SHA-256. -/
def chaChaPolySha256 : Pipes where
  name := "NoisePipes_25519_ChaChaPoly_SHA256"
  abbreviated := .ikChaChaPolySha256
  fallback := .xxFallbackChaChaPolySha256

/-- The composite with AES-256-GCM and SHA-256. -/
def aesGcmSha256 : Pipes where
  name := "NoisePipes_25519_AESGCM_SHA256"
  abbreviated := .ikAesGcmSha256
  fallback := .xxFallbackAesGcmSha256

/-- Every composite. -/
def all : List Pipes := [chaChaPolyBlake2s, chaChaPolySha256, aesGcmSha256]

/-- The composite with a given name. -/
def ofName? (name : String) : Option Pipes := all.find? fun p => p.name = name

/-- A new handshake of the abbreviated protocol. -/
def newHandshake (p : Pipes) : Handshake := .new p.abbreviated

/-- Whether a fallback can continue `attempt`: an attempt of this composite that failed to
authenticate or was given up, and that holds the ephemeral key which its role continues with. -/
def canFallBack (p : Pipes) (attempt : Handshake) : Bool :=
  attempt.protocol.same p.abbreviated && attempt.phase == .failed &&
    (attempt.failure == some .cryptoFailed || attempt.failure == some .handshakeFailed) &&
    match attempt.role with
    | some .initiator => attempt.hasKey .localEphemeral
    | some .responder => attempt.hasKey .remoteEphemeral
    | none => false

/-- A handshake of the fallback protocol that continues `attempt`, started in `role`. -/
def startFallback (p : Pipes) (attempt : Handshake) (role : Role) (prologue : Bytes) :
    Except Error Handshake :=
  if p.canFallBack attempt then
    match (Handshake.new p.fallback).startFallback attempt role prologue with
    | (h, .ok ()) => .ok h
    | (_, .error e) => .error e
  else
    .error .wrongState

/-- The name and the two protocols. -/
def describe (p : Pipes) : String :=
  Text.record "NoisePipes"
    [("name", Text.quoted p.name), ("abbreviated", p.abbreviated.describe),
      ("fallback", p.fallback.describe)] true

end Pipes

end NoiseChannel
