import NoiseChannel.Handshake.KeySlots

/-!
# Handshake patterns

A pattern lists the tokens of each message, the keys that are hashed before the first message, and
which keys are forgotten when a handshake starts.

* XX: `→ e`, `← e, ee, s, es`, `→ s, se`
* IK: `← s` beforehand, then `→ e, es, s, ss`, `← e, ee, se`
* NNpsk0: `→ psk, e`, `← e, ee`
* XXfallback: `→ e` beforehand, then `← e, ee, s, es`, `→ s, se`
-/

namespace NoiseChannel

/-- One step of a handshake message. -/
inductive Token where
  /-- An ephemeral public key in the clear. -/
  | e
  /-- A static public key, encrypted once there is a cipher key. -/
  | s
  /-- Agreement between the two ephemeral keys. -/
  | ee
  /-- Agreement between the initiator's ephemeral and the responder's static key. -/
  | es
  /-- Agreement between the initiator's static and the responder's ephemeral key. -/
  | se
  /-- Agreement between the two static keys. -/
  | ss
  /-- The pre-shared key. -/
  | psk
deriving DecidableEq, Repr

namespace Token

def name : Token → String
  | e => "E"
  | s => "S"
  | ee => "Ee"
  | es => "Es"
  | se => "Se"
  | ss => "Ss"
  | psk => "Psk"

end Token

/-- A handshake pattern. -/
inductive Pattern where
  /-- Both parties send their static keys. -/
  | xx
  /-- The initiator knows the responder's static key and sends its own at once. -/
  | ik
  /-- No static keys, and a pre-shared key mixed in first. -/
  | nnPsk0
  /-- XX entered with an ephemeral key that the initiator has sent already. -/
  | xxFallback
deriving DecidableEq, Repr

namespace Pattern

def all : List Pattern := [xx, ik, nnPsk0, xxFallback]

def name : Pattern → String
  | xx => "XX"
  | ik => "IK"
  | nnPsk0 => "NNpsk0"
  | xxFallback => "XXfallback"

/-- The pattern with a given component in protocol names. -/
def ofName? (s : String) : Option Pattern := all.find? fun p => p.name = s

/-- The initiator's keys that are hashed before the first message. -/
def initiatorPremessage : Pattern → List Token
  | xxFallback => [.e]
  | _ => []

/-- The responder's keys that are hashed before the first message. -/
def responderPremessage : Pattern → List Token
  | ik => [.s]
  | _ => []

/-- The keys of one party that are hashed before the first message. -/
def premessage (p : Pattern) : Role → List Token
  | .initiator => p.initiatorPremessage
  | .responder => p.responderPremessage

/-- The tokens of the messages in order. -/
def messages : Pattern → List (List Token)
  | xx => [[.e], [.e, .ee, .s, .es], [.s, .se]]
  | ik => [[.e, .es, .s, .ss], [.e, .ee, .se]]
  | nnPsk0 => [[.psk, .e], [.e, .ee]]
  | xxFallback => [[.e, .ee, .s, .es], [.s, .se]]

/-- Whether the responder sends the first message. -/
def responderFirst : Pattern → Bool
  | xxFallback => true
  | _ => false

/-- Whether the pattern continues another handshake. -/
def isFallback : Pattern → Bool
  | xxFallback => true
  | _ => false

/-- Whether a pre-shared key is mixed in. Ephemeral public keys are then mixed into the chaining key
as well. -/
def usesPsk (p : Pattern) : Bool := p.messages.any fun tokens => tokens.contains .psk

/-- The party that sends message `n`. -/
def writer (p : Pattern) (n : Nat) : Role :=
  let first : Role := if p.responderFirst then .responder else .initiator
  if n % 2 = 0 then first else first.peer

/-- The key slots after those have been emptied that a starting handshake must not find filled. XX
and XXfallback learn the remote static key; XXfallback keeps the ephemeral keys that it continues
with. -/
def forgetStale (p : Pattern) (slots : KeySlots) : KeySlots :=
  match p with
  | xx => slots.removeRemoteStatic.removeEphemerals
  | ik => slots.removeEphemerals
  | nnPsk0 => slots.removeEphemerals
  | xxFallback => slots.removeRemoteStatic

end Pattern

end NoiseChannel
