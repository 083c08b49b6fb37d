import NoiseChannel.Handshake.Protocol
import NoiseChannel.Symmetric.State

/-!
# Handshakes

A handshake of one protocol as one party sees it. It begins in the phase `initial`, in which keys
are set; once started it alternates between `write` and `read` until all messages of the pattern are
through, waits in `split` for its transport ciphers to be taken, and ends `finished`. A failure
leads to `failed`, from which nothing leads away; the key slots outlive it so that a fallback can
continue with them.

This module holds the record, its keys and its description.
-/

namespace NoiseChannel

/-- Where a handshake stands. -/
inductive Phase where
  /-- Not started. -/
  | initial
  /-- This party is to write the next message. -/
  | write
  /-- This party is to read the next message. -/
  | read
  /-- All messages are through. -/
  | split
  /-- The transport ciphers have been taken. -/
  | finished
  /-- The handshake has failed or has been given up. -/
  | failed
deriving DecidableEq, Repr

namespace Phase

def name : Phase → String
  | initial => "Initial"
  | write => "Write"
  | read => "Read"
  | split => "Split"
  | finished => "Finished"
  | failed => "Failed"

/-- Whether a message is due in this phase. -/
def awaitsMessage : Phase → Bool
  | write | read => true
  | _ => false

end Phase

/-- What the owner of a handshake is to do next. -/
inductive Action where
  | start
  | writeMessage
  | readMessage
  /-- Take the transport ciphers. -/
  | split
  /-- Nothing is left to do. -/
  | complete
  /-- Discard the handshake, or fall back from it. -/
  | failed
deriving DecidableEq, Repr

namespace Action

def name : Action → String
  | start => "Start"
  | writeMessage => "WriteMessage"
  | readMessage => "ReadMessage"
  | split => "Split"
  | complete => "Complete"
  | failed => "Failed"

end Action

/-- The name of a key that a handshake may hold. -/
inductive KeyId where
  | localStatic
  | localEphemeral
  | remoteStatic
  | remoteEphemeral
  | presharedKey
deriving DecidableEq, Repr

namespace KeyId

def all : List KeyId := [localStatic, localEphemeral, remoteStatic, remoteEphemeral, presharedKey]

def name : KeyId → String
  | localStatic => "LocalStatic"
  | localEphemeral => "LocalEphemeral"
  | remoteStatic => "RemoteStatic"
  | remoteEphemeral => "RemoteEphemeral"
  | presharedKey => "PresharedKey"

/-- The key with a given name. -/
def ofName? (s : String) : Option KeyId := all.find? fun id => id.name = s

end KeyId

/-- One party's view of a handshake. -/
structure Handshake where
  protocol : Protocol
  /-- Hash, chaining key and cipher, from the start to the split. -/
  symmetric : Option SymmetricState := none
  slots : KeySlots := .empty
  psk : Option PresharedKey := none
  /-- The role that the handshake was started in. -/
  role : Option Role := none
  /-- Where the handshake stands. -/
  phase : Phase := .initial
  /-- How many messages have been processed. -/
  messageNumber : Nat := 0
  failure : Option Error := none
  /-- The final hash, kept when the transport ciphers are taken. -/
  finalHash : Option Bytes := none
deriving DecidableEq, Repr

namespace Handshake

/-- A handshake that has not been started and holds no keys. -/
def new (protocol : Protocol) : Handshake := { protocol }

def pattern (h : Handshake) : Pattern := h.protocol.pattern

/-- What is to be done next. -/
def nextAction (h : Handshake) : Action :=
  match h.phase with
  | .initial => .start
  | .write => .writeMessage
  | .read => .readMessage
  | .split => .split
  | .finished => .complete
  | .failed => .failed

/-- The handshake after a failure: without its symmetric state, with its keys. -/
def fail (h : Handshake) (e : Error) : Handshake :=
  { h with symmetric := none, phase := .failed, failure := some e }

/-! ## Keys -/

/-- Keys may change until the first message has been processed; afterwards the call is refused. -/
def checkKeysMutable (h : Handshake) : Except Error Unit :=
  match h.phase with
  | .initial => .ok ()
  | .write | .read => if h.messageNumber = 0 then .ok () else .error .wrongState
  | .failed => .error .handshakeFailed
  | _ => .error .wrongState

/-- The handshake with changed key slots, if keys may change. -/
def changeSlots (h : Handshake) (change : KeySlots → KeySlots) : Except Error Handshake := do
  h.checkKeysMutable
  return { h with slots := change h.slots }

def setLocalKeyPair (h : Handshake) (pair : KeyPair) : Except Error Handshake :=
  h.changeSlots (·.setLocalStatic pair)

/-- Sets this party's static pair from secret key material. -/
def setLocalPrivateKey (h : Handshake) (secret : Bytes) : Except Error Handshake := do
  h.checkKeysMutable
  let pair ← KeyPair.ofBytes secret
  return { h with slots := h.slots.setLocalStatic pair }

/-- Sets this party's static pair to one made from a source of randomness. -/
def generateLocalKeyPair (h : Handshake) (e : Entropy) : Except Error Handshake :=
  h.changeSlots (·.setLocalStatic (KeyPair.generate e).1)

/-- Sets this party's ephemeral pair, which is otherwise made when it is first sent. Most patterns
forget ephemeral keys when they start. -/
def setLocalEphemeral (h : Handshake) (pair : KeyPair) : Except Error Handshake :=
  h.changeSlots (·.setLocalEphemeral pair)

def setRemotePublicKey (h : Handshake) (key : PublicKey) : Except Error Handshake :=
  h.changeSlots (·.setRemoteStatic key)

/-- Sets the pre-shared key from 32 bytes. -/
def setPresharedKey (h : Handshake) (bytes : Bytes) : Except Error Handshake := do
  h.checkKeysMutable
  let psk ← PresharedKey.ofBytes bytes
  return { h with psk := some psk }

def hasKey (h : Handshake) : KeyId → Bool
  | .localStatic => h.slots.localStatic.isSome
  | .localEphemeral => h.slots.localEphemeral.isSome
  | .remoteStatic => h.slots.remoteStatic.isSome
  | .remoteEphemeral => h.slots.remoteEphemeral.isSome
  | .presharedKey => h.psk.isSome

/-- Forgets a key. The two ephemeral keys are forgotten together. -/
def removeKey (h : Handshake) (id : KeyId) : Except Error Handshake := do
  h.checkKeysMutable
  match id with
  | .localStatic => return { h with slots := h.slots.removeLocalStatic }
  | .remoteStatic => return { h with slots := h.slots.removeRemoteStatic }
  | .localEphemeral | .remoteEphemeral => return { h with slots := h.slots.removeEphemerals }
  | .presharedKey => return { h with psk := none }

/-- Whether every key in `needs` is held. -/
def holds (h : Handshake) (needs : KeyNeeds) : Bool :=
  (!needs.localStatic || h.hasKey .localStatic) &&
    (!needs.remoteStatic || h.hasKey .remoteStatic) &&
    (!needs.psk || h.hasKey .presharedKey)

/-! ## Description -/

/-- Protocol, role and progress; no keys. -/
def describe (h : Handshake) : String :=
  Text.record "HandshakeState"
    [("protocol", Text.quoted h.protocol.name),
      ("role", Text.option Role.name h.role),
      ("state", h.phase.name),
      ("message_number", toString h.messageNumber),
      ("failure", Text.option Error.name h.failure)] false

end Handshake

end NoiseChannel
