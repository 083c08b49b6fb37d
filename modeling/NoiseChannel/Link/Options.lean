import NoiseChannel.Handshake.State
import NoiseChannel.Payload.Options

/-!
# Link options

What one end of a link is configured with: keys, the protocols that it offers in order of
preference, buffer sizes, and padding. Handshakes made from the options hold exactly the keys that
their protocol needs in the given role.
-/

namespace NoiseChannel

/-! ## Padding -/

/-- How the unused part of a transport buffer is filled. -/
inductive Padding where
  /-- Left as it is. -/
  | none
  /-- Filled with zeros. -/
  | zero
  /-- Filled with random bytes. -/
  | random
deriving DecidableEq, Repr

namespace Padding

/-- Every manner. -/
def all : List Padding := [none, zero, random]

def name : Padding → String
  | none => "None"
  | zero => "Zero"
  | random => "Random"

/-- The manner with a given name. -/
def ofName? (s : String) : Option Padding := all.find? fun p => p.name = s

/-- The contents of a buffer after it has been filled, and what is left of the source. -/
def fill (p : Padding) (buffer : Bytes) (e : Entropy) : Bytes × Entropy :=
  match p with
  | none => (buffer, e)
  | zero => (Bytes.zeros buffer.length, e)
  | random => (e.take buffer.length, e.drop buffer.length)

end Padding

/-! ## Options -/

/-- The settings of one end of a link. -/
structure LinkOptions where
  localKeyPair : Option KeyPair := none
  remotePublic : Option PublicKey := none
  psk : Option PresharedKey := none
  /-- The protocols offered, the preferred one first. -/
  protocols : List Protocol := []
  /-- The size of the buffer for messages to the peer. -/
  sendBufferSize : Nat := 512
  /-- The size of the buffer for messages from the peer. -/
  receiveBufferSize : Nat := 512
  /-- Whether protocols may be named by their aliases. -/
  allowAliases : Bool := true
  /-- How transport buffers are filled up. -/
  padding : Padding := .none
deriving DecidableEq, Repr

namespace LinkOptions

/-- The greatest number of protocols. -/
def maxProtocols : Nat := 4

/-- The smallest buffer size; smaller requests are raised to it. -/
def minBufferSize : Nat := 128

/-- The largest buffer size; larger requests are lowered to it. -/
def maxBufferSize : Nat := 2048

/-- No keys, no protocols, and buffers of 512 bytes. -/
def new : LinkOptions := {}

/-! ## Keys -/

def setLocalKeyPair (o : LinkOptions) (pair : KeyPair) : LinkOptions :=
  { o with localKeyPair := some pair }

/-- Sets this party's static pair from secret key material. -/
def setLocalPrivateKey (o : LinkOptions) (secret : Bytes) : Except LinkError LinkOptions :=
  match KeyPair.ofBytes secret with
  | .ok pair => .ok (o.setLocalKeyPair pair)
  | .error e => .error (.handshake e)

/-- Sets this party's static pair to one made from a source of randomness, and gives its public
key. -/
def generateLocalKeyPair (o : LinkOptions) (e : Entropy) : PublicKey × LinkOptions :=
  let pair := (KeyPair.generate e).1
  (pair.publicKey, o.setLocalKeyPair pair)

/-- This party's static public key. -/
def localPublic (o : LinkOptions) : Option PublicKey := o.localKeyPair.map KeyPair.publicKey

def removeLocalKeyPair (o : LinkOptions) : LinkOptions := { o with localKeyPair := none }

def setRemotePublic (o : LinkOptions) (key : PublicKey) : LinkOptions :=
  { o with remotePublic := some key }

def removeRemotePublic (o : LinkOptions) : LinkOptions := { o with remotePublic := none }

def setPsk (o : LinkOptions) (psk : PresharedKey) : LinkOptions := { o with psk := some psk }

/-- Sets the pre-shared key from 32 bytes. -/
def setPresharedKey (o : LinkOptions) (bytes : Bytes) : Except LinkError LinkOptions :=
  match PresharedKey.ofBytes bytes with
  | .ok psk => .ok (o.setPsk psk)
  | .error e => .error (.handshake e)

def removePsk (o : LinkOptions) : LinkOptions := { o with psk := none }

/-- Forgets all keys and keeps the other settings. -/
def clear (o : LinkOptions) : LinkOptions :=
  { o with localKeyPair := none, remotePublic := none, psk := none }

/-! ## Protocols -/

/-- Offers one more protocol, after those offered already. Nothing changes if it is among them. -/
def addProtocol (o : LinkOptions) (p : Protocol) : Except LinkError LinkOptions :=
  if o.protocols.any p.same then .ok o
  else if maxProtocols ≤ o.protocols.length then .error .tooManyProtocols
  else .ok { o with protocols := o.protocols ++ [p] }

/-- Offers a protocol no more. -/
def removeProtocol (o : LinkOptions) (p : Protocol) : LinkOptions :=
  { o with protocols := o.protocols.filter fun q => !q.same p }

/-- The protocol at a place of the list. -/
def protocolAt? (o : LinkOptions) (index : Nat) : Option Protocol := o.protocols[index]?

/-- Whether a protocol goes by a given name here. -/
def goesBy (o : LinkOptions) (p : Protocol) (name : String) : Bool :=
  p.name == name || (o.allowAliases && p.alias? == some name)

/-- The first place of the list whose protocol goes by a given name. -/
def protocolIndex? (o : LinkOptions) (name : String) : Option Nat :=
  o.protocols.findIdx? fun p => o.goesBy p name

def setAllowAliases (o : LinkOptions) (allow : Bool) : LinkOptions :=
  { o with allowAliases := allow }

/-! ## Buffers and padding -/

/-- The allowed buffer size nearest to a requested one. -/
def clampSize (size : Nat) : Nat := max minBufferSize (min size maxBufferSize)

/-- Sets the size of the buffer for messages to the peer, within the allowed range. -/
def setSendBufferSize (o : LinkOptions) (size : Nat) : LinkOptions :=
  { o with sendBufferSize := clampSize size }

/-- Sets the size of the buffer for messages from the peer, within the allowed range. -/
def setReceiveBufferSize (o : LinkOptions) (size : Nat) : LinkOptions :=
  { o with receiveBufferSize := clampSize size }

def setPadding (o : LinkOptions) (padding : Padding) : LinkOptions := { o with padding }

/-- A buffer size as a limit to be advertised, if it has 32 bits. -/
def advertised? (size : Nat) : Option UInt32 :=
  if size < UInt32.size then some (UInt32.ofNat size) else none

/-- The buffer sizes as limits to be advertised to the peer. -/
def transportOptions (o : LinkOptions) : TransportOptions :=
  { maxSendLength := advertised? o.sendBufferSize
    maxReceiveLength := advertised? o.receiveBufferSize }

/-! ## Handshakes -/

/-- A handshake of the protocol at a place of the list, not started, with the keys that the protocol
needs in `role`. -/
def createHandshake (o : LinkOptions) (role : Role) (index : Nat) : Except LinkError Handshake :=
  match o.protocolAt? index with
  | none => .error .noSuchProtocol
  | some protocol =>
    let needs := protocol.needs role
    let localKeyPair := o.localKeyPair.filter fun _ => needs.localStatic
    let remotePublic := o.remotePublic.filter fun _ => needs.remoteStatic
    let psk := o.psk.filter fun _ => needs.psk
    let missing :=
      (needs.localStatic && localKeyPair.isNone) || (needs.remoteStatic && remotePublic.isNone) ||
        (needs.psk && psk.isNone)
    if missing then .error (.handshake .missingKey)
    else
      let loaded : Except Error Handshake := do
        let h := Handshake.new protocol
        let h ← match localKeyPair with
          | some pair => h.setLocalKeyPair pair
          | none => pure h
        let h ← match remotePublic with
          | some key => h.setRemotePublicKey key
          | none => pure h
        match psk with
          | some psk => h.setPresharedKey psk.bytes
          | none => pure h
      match loaded with
      | .ok h => .ok h
      | .error e => .error (.handshake e)

/-- The settings; of the keys, only the public ones are shown. -/
def describe (o : LinkOptions) : String :=
  Text.record "LinkOptions"
    [("local_public", Text.option PublicKey.describe o.localPublic),
      ("remote_public", Text.option PublicKey.describe o.remotePublic),
      ("has_psk", Text.truth o.psk.isSome),
      ("protocols", Text.list (o.protocols.map fun p => Text.quoted p.name)),
      ("send_buffer_size", toString o.sendBufferSize),
      ("receive_buffer_size", toString o.receiveBufferSize),
      ("allow_aliases", Text.truth o.allowAliases),
      ("padding", o.padding.name)] true

end LinkOptions

end NoiseChannel
