import NoiseChannel.Key

/-!
# Roles and key slots

The two parties of a handshake, and the four Curve25519 keys of one party: its own static and
ephemeral pair, and the peer's static and ephemeral public key. Every slot starts empty.
-/

namespace NoiseChannel

/-! ## Roles -/

/-- A party of a handshake. -/
inductive Role where
  /-- The party that opens the link. -/
  | initiator
  /-- The party that answers. -/
  | responder
deriving DecidableEq, Repr

namespace Role

/-- Both parties. -/
def all : List Role := [initiator, responder]

/-- The other party. -/
def peer : Role → Role
  | initiator => responder
  | responder => initiator

def name : Role → String
  | initiator => "Initiator"
  | responder => "Responder"

/-- The role with a given name. -/
def ofName? (s : String) : Option Role := all.find? fun r => r.name = s

@[simp] theorem peer_peer (r : Role) : r.peer.peer = r := by
  cases r <;> rfl

end Role

/-! ## Slots -/

/-- The Curve25519 keys that one party holds. -/
structure KeySlots where
  /-- This party's long-term pair. -/
  localStatic : Option KeyPair := none
  /-- This party's pair for this handshake. -/
  localEphemeral : Option KeyPair := none
  /-- The peer's long-term key. -/
  remoteStatic : Option PublicKey := none
  /-- The peer's key for this handshake. -/
  remoteEphemeral : Option PublicKey := none
deriving DecidableEq, Repr

namespace KeySlots

/-- No keys. -/
def empty : KeySlots := {}

/-- Fills the slot of this party's static pair. -/
def setLocalStatic (k : KeySlots) (pair : KeyPair) : KeySlots := { k with localStatic := some pair }

/-- Fills the slot of this party's ephemeral pair. -/
def setLocalEphemeral (k : KeySlots) (pair : KeyPair) : KeySlots :=
  { k with localEphemeral := some pair }

/-- Fills the slot of the peer's static key. -/
def setRemoteStatic (k : KeySlots) (key : PublicKey) : KeySlots :=
  { k with remoteStatic := some key }

/-- Fills the slot of the peer's ephemeral key. -/
def setRemoteEphemeral (k : KeySlots) (key : PublicKey) : KeySlots :=
  { k with remoteEphemeral := some key }

/-- Empties the slot of this party's static pair. -/
def removeLocalStatic (k : KeySlots) : KeySlots := { k with localStatic := none }

/-- Empties the slot of the peer's static key. -/
def removeRemoteStatic (k : KeySlots) : KeySlots := { k with remoteStatic := none }

/-- Empties both ephemeral slots. -/
def removeEphemerals (k : KeySlots) : KeySlots :=
  { k with localEphemeral := none, remoteEphemeral := none }

/-- This party's static public key. -/
def localStaticPublic (k : KeySlots) : Option PublicKey := k.localStatic.map KeyPair.publicKey

/-- This party's ephemeral public key. -/
def localEphemeralPublic (k : KeySlots) : Option PublicKey :=
  k.localEphemeral.map KeyPair.publicKey

/-- Fills the slot of this party's ephemeral pair from a source, unless it is filled already. Gives
the public key in the slot, the slots and what is left of the source. -/
def generateLocalEphemeral (k : KeySlots) (e : Entropy) : PublicKey × KeySlots × Entropy :=
  match k.localEphemeral with
  | some pair => (pair.publicKey, k, e)
  | none =>
    let (pair, e) := KeyPair.generate e
    (pair.publicKey, k.setLocalEphemeral pair, e)

/-! ## Agreement -/

/-- Agreement between a pair of this party and a key of the peer, if both are held. -/
def agree (mine : Option KeyPair) (theirs : Option PublicKey) : Except Error SharedSecret :=
  match mine, theirs with
  | some pair, some key => pair.secret.agree key
  | _, _ => .error .missingKey

/-- Agreement between the ephemeral keys. -/
def ee (k : KeySlots) : Except Error SharedSecret := agree k.localEphemeral k.remoteEphemeral

/-- Agreement between the static keys. -/
def ss (k : KeySlots) : Except Error SharedSecret := agree k.localStatic k.remoteStatic

/-- Agreement between the initiator's ephemeral and the responder's static key, for the party in
`role`. -/
def es (k : KeySlots) : Role → Except Error SharedSecret
  | .initiator => agree k.localEphemeral k.remoteStatic
  | .responder => agree k.localStatic k.remoteEphemeral

/-- Agreement between the initiator's static and the responder's ephemeral key, for the party in
`role`. -/
def se (k : KeySlots) : Role → Except Error SharedSecret
  | .initiator => agree k.localStatic k.remoteEphemeral
  | .responder => agree k.localEphemeral k.remoteStatic

/-! ## Falling back -/

/-- Takes over from the slots of a failed attempt what a fallback continues with: the initiator its
own ephemeral pair, the responder the peer's ephemeral key. The static pair comes along if this
party has none yet. -/
def takeOver (k : KeySlots) (role : Role) (attempt : KeySlots) : Except Error KeySlots :=
  let withStatic (k : KeySlots) : KeySlots :=
    { k with localStatic := k.localStatic.or attempt.localStatic }
  match role with
  | .initiator =>
    match attempt.localEphemeral with
    | some pair => .ok (withStatic (k.setLocalEphemeral pair))
    | none => .error .missingKey
  | .responder =>
    match attempt.remoteEphemeral with
    | some key => .ok (withStatic (k.setRemoteEphemeral key))
    | none => .error .missingKey

end KeySlots

end NoiseChannel
