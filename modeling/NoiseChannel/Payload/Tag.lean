/-!
# Tags of payload fields

The fields of the payloads that handshake messages carry, each with the tag that it has on the wire.
-/

namespace NoiseChannel

/-- The fields of a client's request. -/
inductive RequestTag where
  /-- The server that the client wants to reach. -/
  | serverName
  /-- The protocol that the client begins with. -/
  | initialProtocol
  /-- A protocol that the client can switch to. -/
  | switchProtocol
  /-- A protocol that the client could try again with. -/
  | retryProtocol
  /-- The protocol that the server rejected last time. -/
  | rejectedProtocol
  /-- Which pre-shared key the client means. -/
  | pskId
deriving DecidableEq, Repr

namespace RequestTag

def all : List RequestTag :=
  [serverName, initialProtocol, switchProtocol, retryProtocol, rejectedProtocol, pskId]

def value : RequestTag → UInt8
  | serverName => 1
  | initialProtocol => 2
  | switchProtocol => 3
  | retryProtocol => 4
  | rejectedProtocol => 5
  | pskId => 6

def name : RequestTag → String
  | serverName => "ServerName"
  | initialProtocol => "InitialProtocol"
  | switchProtocol => "SwitchProtocol"
  | retryProtocol => "RetryProtocol"
  | rejectedProtocol => "RejectedProtocol"
  | pskId => "PskId"

def ofValue? (v : UInt8) : Option RequestTag := all.find? fun t => t.value = v

end RequestTag

/-- The fields of a server's response. -/
inductive ResponseTag where
  /-- The protocol to switch to. -/
  | switchProtocol
  /-- The protocol to try again with. -/
  | retryProtocol
  /-- Whether the request is rejected. -/
  | rejected
deriving DecidableEq, Repr

namespace ResponseTag

def all : List ResponseTag := [switchProtocol, retryProtocol, rejected]

def value : ResponseTag → UInt8
  | switchProtocol => 3
  | retryProtocol => 4
  | rejected => 5

def name : ResponseTag → String
  | switchProtocol => "SwitchProtocol"
  | retryProtocol => "RetryProtocol"
  | rejected => "Rejected"

def ofValue? (v : UInt8) : Option ResponseTag := all.find? fun t => t.value = v

end ResponseTag

/-- The fields of payload options. -/
inductive OptionTag where
  /-- A kind of evidence that is asked for. -/
  | evidenceRequestType
  /-- The kind of the evidence given. -/
  | evidenceBlobType
  /-- The evidence given. -/
  | evidenceBlob
  /-- Which pre-shared key is meant. -/
  | pskId
  /-- The embedded transport options. -/
  | transport
deriving DecidableEq, Repr

namespace OptionTag

def all : List OptionTag :=
  [evidenceRequestType, evidenceBlobType, evidenceBlob, pskId, transport]

def value : OptionTag → UInt8
  | evidenceRequestType => 1
  | evidenceBlobType => 2
  | evidenceBlob => 3
  | pskId => 4
  | transport => 5

def name : OptionTag → String
  | evidenceRequestType => "EvidenceRequestType"
  | evidenceBlobType => "EvidenceBlobType"
  | evidenceBlob => "EvidenceBlob"
  | pskId => "PskId"
  | transport => "Transport"

def ofValue? (v : UInt8) : Option OptionTag := all.find? fun t => t.value = v

end OptionTag

/-- The fields of transport options. -/
inductive TransportTag where
  /-- The longest message that the sender will send. -/
  | maxSendLength
  /-- The longest message that the sender will take. -/
  | maxReceiveLength
  /-- Whether keys are replaced after every message. -/
  | continuousRekey
  /-- Whether a short message ends the session. -/
  | shortTerminated
deriving DecidableEq, Repr

namespace TransportTag

def all : List TransportTag := [maxSendLength, maxReceiveLength, continuousRekey, shortTerminated]

def value : TransportTag → UInt8
  | maxSendLength => 1
  | maxReceiveLength => 2
  | continuousRekey => 3
  | shortTerminated => 4

def name : TransportTag → String
  | maxSendLength => "MaxSendLength"
  | maxReceiveLength => "MaxRecvLength"
  | continuousRekey => "ContinuousRekey"
  | shortTerminated => "ShortTerminated"

def ofValue? (v : UInt8) : Option TransportTag := all.find? fun t => t.value = v

end TransportTag

end NoiseChannel
