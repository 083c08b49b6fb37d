import NoiseChannel.Payload.Negotiation

/-!
# Option payloads

The options that a handshake message carries, with the transport options as an embedded message that
is left out if it would be empty.
-/

namespace NoiseChannel

/-- The limits and manners that a party asks of its peer. -/
structure TransportOptions where
  /-- The longest message that the sender will send. -/
  maxSendLength : Option UInt32 := none
  /-- The longest message that the sender will take. -/
  maxReceiveLength : Option UInt32 := none
  /-- Whether keys are replaced after every message. -/
  continuousRekey : Bool := false
  /-- Whether a short message ends the session. -/
  shortTerminated : Bool := false
deriving DecidableEq, Repr

namespace TransportOptions

/-- Whether nothing is asked for. -/
def isEmpty (m : TransportOptions) : Bool := m == {}

def addLength? (w : Writer) (tag : UInt8) : Option UInt32 → Writer
  | some n => w.addUInt32 tag n
  | none => w

def write (m : TransportOptions) (w : Writer) : Writer :=
  let w := addLength? w TransportTag.maxSendLength.value m.maxSendLength
  let w := addLength? w TransportTag.maxReceiveLength.value m.maxReceiveLength
  let w := w.addFlag TransportTag.continuousRekey.value m.continuousRekey
  w.addFlag TransportTag.shortTerminated.value m.shortTerminated

def visit (tag : UInt8) (m : TransportOptions) (r : Reader) : TransportOptions × Reader :=
  match TransportTag.ofValue? tag with
  | some .maxSendLength =>
    let (n, r) := r.readUInt32
    ({ m with maxSendLength := some n }, r)
  | some .maxReceiveLength =>
    let (n, r) := r.readUInt32
    ({ m with maxReceiveLength := some n }, r)
  | some .continuousRekey =>
    let (b, r) := r.readBool
    ({ m with continuousRekey := b }, r)
  | some .shortTerminated =>
    let (b, r) := r.readBool
    ({ m with shortTerminated := b }, r)
  | none => (m, r)

/-- Reads the fields of the message that the reader stands in. -/
def read (r : Reader) : TransportOptions × Reader := r.visitAll visit {}

def encode (m : TransportOptions) (area : Bytes) : Except LinkError Bytes :=
  (m.write (.new area)).written

def decode (input : Bytes) : Except LinkError TransportOptions :=
  let (m, r) := read (.new input)
  r.finish.map fun _ => m

end TransportOptions

/-- The options that a handshake message carries. -/
structure PayloadOptions where
  /-- The kinds of evidence that are asked for. -/
  evidenceRequestTypes : List String := []
  /-- The kind of the evidence given. -/
  evidenceBlobType : Option String := none
  /-- The evidence given. -/
  evidenceBlob : Option Bytes := none
  /-- Which pre-shared key is meant. -/
  pskId : Option Bytes := none
  /-- The transport options. -/
  transport : Option TransportOptions := none
deriving DecidableEq, Repr

namespace PayloadOptions

/-- Appends the transport options as an embedded message, unless they are empty. -/
def writeTransport (m : TransportOptions) (w : Writer) : Writer :=
  if m.isEmpty then w
  else
    let (mark, w) := w.startEmbedded OptionTag.transport.value
    (m.write w).endEmbedded mark

def write (m : PayloadOptions) (w : Writer) : Writer :=
  let w := w.addStrings OptionTag.evidenceRequestType.value m.evidenceRequestTypes
  let w := w.addString? OptionTag.evidenceBlobType.value m.evidenceBlobType
  let w := w.addBytes? OptionTag.evidenceBlob.value m.evidenceBlob
  let w := w.addBytes? OptionTag.pskId.value m.pskId
  match m.transport with
  | some transport => writeTransport transport w
  | none => w

def visit (tag : UInt8) (m : PayloadOptions) (r : Reader) : PayloadOptions × Reader :=
  match OptionTag.ofValue? tag with
  | some .evidenceRequestType =>
    let (s, r) := r.readString
    ({ m with evidenceRequestTypes := m.evidenceRequestTypes ++ [s] }, r)
  | some .evidenceBlobType =>
    let (s, r) := r.readString
    ({ m with evidenceBlobType := some s }, r)
  | some .evidenceBlob =>
    let (bytes, r) := r.readBytes
    ({ m with evidenceBlob := some bytes }, r)
  | some .pskId =>
    let (bytes, r) := r.readBytes
    ({ m with pskId := some bytes }, r)
  | some .transport =>
    let (outer, r) := r.startEmbedded
    let (transport, r) := TransportOptions.read r
    ({ m with transport := some transport }, r.endEmbedded outer)
  | none => (m, r)

def encode (m : PayloadOptions) (area : Bytes) : Except LinkError Bytes :=
  (m.write (.new area)).written

def decode (input : Bytes) : Except LinkError PayloadOptions :=
  let (m, r) := (Reader.new input).visitAll visit {}
  r.finish.map fun _ => m

end PayloadOptions

end NoiseChannel
