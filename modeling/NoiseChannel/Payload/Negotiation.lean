import NoiseChannel.Payload.Tag
import NoiseChannel.Wire.Reader
import NoiseChannel.Wire.Writer

/-!
# Negotiation payloads

What a client proposes and what a server answers. Encoding writes the fields in the order of their
tags, list fields once for each entry, truth values only if true. Decoding takes the last occurrence
of a single field, every occurrence of a list field, and passes over unknown tags.
-/

namespace NoiseChannel

namespace Writer

def addString? (w : Writer) (tag : UInt8) : Option String → Writer
  | some s => w.addString tag s
  | none => w

def addBytes? (w : Writer) (tag : UInt8) : Option Bytes → Writer
  | some bytes => w.addBytes tag bytes
  | none => w

def addStrings (w : Writer) (tag : UInt8) (entries : List String) : Writer :=
  entries.foldl (fun w s => w.addString tag s) w

/-- Appends a field with the value true, if `b` is true. -/
def addFlag (w : Writer) (tag : UInt8) (b : Bool) : Writer := if b then w.addBool tag true else w

end Writer

/-- A client's request. -/
structure ClientNegotiation where
  /-- The server that the client wants to reach. -/
  serverName : Option String := none
  /-- The protocol that the client begins with. -/
  initialProtocol : Option String := none
  /-- The protocols that the client can switch to. -/
  switchProtocols : List String := []
  /-- The protocols that the client could try again with. -/
  retryProtocols : List String := []
  /-- The protocol that the server rejected last time. -/
  rejectedProtocol : Option String := none
  /-- Which pre-shared key the client means. -/
  pskId : Option Bytes := none
deriving DecidableEq, Repr

namespace ClientNegotiation

def write (m : ClientNegotiation) (w : Writer) : Writer :=
  let w := w.addString? RequestTag.serverName.value m.serverName
  let w := w.addString? RequestTag.initialProtocol.value m.initialProtocol
  let w := w.addStrings RequestTag.switchProtocol.value m.switchProtocols
  let w := w.addStrings RequestTag.retryProtocol.value m.retryProtocols
  let w := w.addString? RequestTag.rejectedProtocol.value m.rejectedProtocol
  w.addBytes? RequestTag.pskId.value m.pskId

/-- Takes in one field. -/
def visit (tag : UInt8) (m : ClientNegotiation) (r : Reader) : ClientNegotiation × Reader :=
  match RequestTag.ofValue? tag with
  | some .serverName =>
    let (s, r) := r.readString
    ({ m with serverName := some s }, r)
  | some .initialProtocol =>
    let (s, r) := r.readString
    ({ m with initialProtocol := some s }, r)
  | some .switchProtocol =>
    let (s, r) := r.readString
    ({ m with switchProtocols := m.switchProtocols ++ [s] }, r)
  | some .retryProtocol =>
    let (s, r) := r.readString
    ({ m with retryProtocols := m.retryProtocols ++ [s] }, r)
  | some .rejectedProtocol =>
    let (s, r) := r.readString
    ({ m with rejectedProtocol := some s }, r)
  | some .pskId =>
    let (bytes, r) := r.readBytes
    ({ m with pskId := some bytes }, r)
  | none => (m, r)

/-- Writes the message to the front of `area`. Gives what was written. -/
def encode (m : ClientNegotiation) (area : Bytes) : Except LinkError Bytes :=
  (m.write (.new area)).written

def decode (input : Bytes) : Except LinkError ClientNegotiation :=
  let (m, r) := (Reader.new input).visitAll visit {}
  r.finish.map fun _ => m

end ClientNegotiation

/-- A server's response. -/
structure ServerNegotiation where
  /-- The protocol to switch to. -/
  switchProtocol : Option String := none
  /-- The protocol to try again with. -/
  retryProtocol : Option String := none
  /-- Whether the request is rejected. -/
  rejected : Bool := false
deriving DecidableEq, Repr

namespace ServerNegotiation

def write (m : ServerNegotiation) (w : Writer) : Writer :=
  let w := w.addString? ResponseTag.switchProtocol.value m.switchProtocol
  let w := w.addString? ResponseTag.retryProtocol.value m.retryProtocol
  w.addFlag ResponseTag.rejected.value m.rejected

def visit (tag : UInt8) (m : ServerNegotiation) (r : Reader) : ServerNegotiation × Reader :=
  match ResponseTag.ofValue? tag with
  | some .switchProtocol =>
    let (s, r) := r.readString
    ({ m with switchProtocol := some s }, r)
  | some .retryProtocol =>
    let (s, r) := r.readString
    ({ m with retryProtocol := some s }, r)
  | some .rejected =>
    let (b, r) := r.readBool
    ({ m with rejected := b }, r)
  | none => (m, r)

def encode (m : ServerNegotiation) (area : Bytes) : Except LinkError Bytes :=
  (m.write (.new area)).written

def decode (input : Bytes) : Except LinkError ServerNegotiation :=
  let (m, r) := (Reader.new input).visitAll visit {}
  r.finish.map fun _ => m

end ServerNegotiation

end NoiseChannel
