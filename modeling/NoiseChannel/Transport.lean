import NoiseChannel.Handshake.Message

/-!
# Transport

After the last message a handshake is split into two ciphers, one for each direction. A transport
holds them together with the final handshake hash, by which the parties can tell that they share a
channel.
-/

namespace NoiseChannel

namespace Handshake

/-- The handshake hash, once all messages are through. -/
def hash (h : Handshake) : Except Error Bytes :=
  let found : Option Bytes :=
    match h.phase with
    | .split => h.symmetric.map SymmetricState.hash
    | .finished => h.finalHash
    | _ => none
  match found with
  | some hash => .ok hash
  | none => .error .wrongState

/-- Takes the ciphers for sending and for receiving. The initiator sends with the first derived key,
the responder with the second. The ephemeral keys are forgotten. -/
def split (h : Handshake) : Handshake × Except Error (CipherState × CipherState) :=
  match h.phase, h.role, h.symmetric with
  | .split, some role, some symmetric =>
    let (hash, first, second) := symmetric.split
    let ciphers :=
      match role with
      | .initiator => (first, second)
      | .responder => (second, first)
    ({ h with
        symmetric := none
        slots := h.slots.removeEphemerals
        phase := .finished
        finalHash := some hash }, .ok ciphers)
  | _, _, _ => (h, .error .wrongState)

end Handshake

/-- The two directions of a channel. -/
structure Transport where
  /-- The cipher for messages to the peer. -/
  send : CipherState
  /-- The cipher for messages from the peer. -/
  receive : CipherState
  /-- The final hash of the handshake. -/
  hash : Bytes
deriving DecidableEq, Repr

namespace Transport

/-- The transport that a completed handshake leads to. -/
def ofHandshake (h : Handshake) : Except Error Transport :=
  match h.split with
  | (h, .ok (send, receive)) =>
    match h.finalHash with
    | some hash => .ok ⟨send, receive, hash⟩
    | none => .error .wrongState
  | (_, .error e) => .error e

/-- Encrypts a payload to the front of `area`. -/
def write (t : Transport) (payload area : Bytes) : Outcome Transport :=
  (t.send.encrypt [] payload area).mapState fun send => { t with send }

/-- Decrypts a message to the front of `area`. -/
def read (t : Transport) (message area : Bytes) : Outcome Transport :=
  (t.receive.decrypt [] message area).mapState fun receive => { t with receive }

/-- The growth of every message. -/
def overhead (_ : Transport) : Nat := Aead.tagLength

/-- The counter of the next message to be sent. -/
def sendNonce (t : Transport) : UInt64 := t.send.nonce

/-- The counter of the next message to be received. -/
def receiveNonce (t : Transport) : UInt64 := t.receive.nonce

/-- Receives the next message under a given counter, where messages may be lost or overtake each
other. -/
def setReceiveNonce (t : Transport) (nonce : UInt64) : Transport :=
  { t with receive := t.receive.setNonce nonce }

/-- Replaces the key for sending. -/
def rekeySend (t : Transport) : Transport := { t with send := t.send.rekey }

/-- Replaces the key for receiving. -/
def rekeyReceive (t : Transport) : Transport := { t with receive := t.receive.rekey }

/-- The two ciphers; the hash is not shown. -/
def describe (t : Transport) : String :=
  Text.record "TransportState" [("send", t.send.describe), ("recv", t.receive.describe)] false

end Transport

end NoiseChannel
