import NoiseChannel.Bytes

/-!
# Outcomes of calls

The reasons for which an operation on keys, ciphers and handshakes is refused, and what is left
behind by a call that produces bytes. Such a call writes to the front of an area that its caller
lends; the area has contents before and after the call, also where the call is refused.
-/

namespace NoiseChannel

/-! ## Causes of failure -/

/-- Why an operation was refused. -/
inductive Error where
  /-- A ciphertext did not authenticate. -/
  | cryptoFailed
  /-- A key has the wrong length, or key agreement gave the all-zero result. -/
  | badKey
  /-- The caller's output area cannot hold the result. -/
  | bufferTooSmall
  /-- The operation is not allowed in the present phase. -/
  | wrongState
  /-- A received message is too short for its form. -/
  | badMessage
  /-- The nonce counter has reached its last value, which is reserved. -/
  | nonceExhausted
  /-- A key that the operation needs is not held. -/
  | missingKey
  /-- A protocol name is malformed or not registered. -/
  | unknownProtocol
  /-- The handshake has failed earlier. -/
  | handshakeFailed
deriving DecidableEq, Repr

namespace Error

/-- The name of the cause. -/
def name : Error → String
  | cryptoFailed => "CryptoFailed"
  | badKey => "BadKey"
  | bufferTooSmall => "BufferTooSmall"
  | wrongState => "WrongState"
  | badMessage => "BadMessage"
  | nonceExhausted => "NonceExhausted"
  | missingKey => "MissingKey"
  | unknownProtocol => "UnknownProtocol"
  | handshakeFailed => "HandshakeFailed"

/-- The cause in words. -/
def message : Error → String
  | cryptoFailed => "cryptographic operation failed"
  | badKey => "invalid key"
  | bufferTooSmall => "output buffer too small"
  | wrongState => "operation not valid in current state"
  | badMessage => "malformed handshake message"
  | nonceExhausted => "nonce counter exhausted"
  | missingKey => "required key not set"
  | unknownProtocol => "unknown protocol"
  | handshakeFailed => "handshake has failed"

end Error

/-! ## Calls that write -/

/-- What a call leaves behind. -/
structure Outcome (σ : Type) where
  /-- The state after the call. -/
  state : σ
  /-- The contents of the lent area after the call. -/
  area : Bytes
  /-- How many bytes at the front of the area were written, or why the call was refused. -/
  result : Except Error Nat

namespace Outcome

variable {σ : Type}

/-- The bytes that were written, or why the call was refused. -/
def written (o : Outcome σ) : Except Error Bytes := o.result.map fun n => o.area.take n

/-- The same outcome with a larger state built around the one it was computed for. -/
def mapState {τ : Type} (f : σ → τ) (o : Outcome σ) : Outcome τ := ⟨f o.state, o.area, o.result⟩

end Outcome

end NoiseChannel
