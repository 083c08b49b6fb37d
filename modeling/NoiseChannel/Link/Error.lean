import NoiseChannel.Outcome

/-!
# Causes of failure on the link

The reasons for which link options and payloads are refused.
-/

namespace NoiseChannel

/-- Why an operation on link options or payloads was refused. -/
inductive LinkError where
  /-- A handshake refused an operation. -/
  | handshake (cause : Error)
  /-- A payload does not fit its area, or an embedded message is too long. -/
  | encoding
  /-- A payload cannot be read. -/
  | malformed
  /-- The options hold the greatest number of protocols already. -/
  | tooManyProtocols
  /-- No protocol is configured in that place. -/
  | noSuchProtocol
deriving DecidableEq, Repr

namespace LinkError

/-- The name of the cause. -/
def name : LinkError → String
  | handshake cause => "Handshake(" ++ cause.name ++ ")"
  | encoding => "Encoding"
  | malformed => "Malformed"
  | tooManyProtocols => "TooManyProtocols"
  | noSuchProtocol => "NoSuchProtocol"

/-- The cause in words. -/
def message : LinkError → String
  | handshake cause => "handshake: " ++ cause.message
  | encoding => "payload encoding failed"
  | malformed => "malformed payload"
  | tooManyProtocols => "too many protocols configured"
  | noSuchProtocol => "no such protocol configured"

/-- The cause behind the cause. -/
def source? : LinkError → Option Error
  | handshake cause => some cause
  | _ => none

end LinkError

end NoiseChannel
