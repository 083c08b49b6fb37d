import NoiseChannel.Handshake.Start

/-!
# Handshake messages

Writing and reading the messages of a handshake, token by token. A token that carries a key appends
it to the message, a static key encrypted once there is a cipher key; the other tokens mix a secret
into the symmetric state. The payload, encrypted likewise, ends the message.

The growth of the next message over its payload is known beforehand. A call whose output area is too
small for it is refused without any change; every other refusal while a message is due makes the
handshake fail.
-/

namespace NoiseChannel.Handshake

/-! ## Growth of a message -/

/-- Whether the cipher has a key after a token, given whether it had one before. In patterns with a
pre-shared key an ephemeral key is key material too. -/
def keyedAfter (usesPsk keyed : Bool) : Token → Bool
  | .e => keyed || usesPsk
  | .s => keyed
  | .ee | .es | .se | .ss | .psk => true

/-- The bytes that a tag takes, if the cipher has a key. -/
def tagSize (keyed : Bool) : Nat := if keyed then Aead.tagLength else 0

/-- The bytes that a token appends to a message. -/
def tokenSize (keyed : Bool) : Token → Nat
  | .e => PublicKey.length
  | .s => PublicKey.length + tagSize keyed
  | .ee | .es | .se | .ss | .psk => 0

/-- The growth over its payload of a message with the given tokens. -/
def overheadOf (usesPsk : Bool) : List Token → Bool → Nat
  | [], keyed => tagSize keyed
  | t :: ts, keyed => tokenSize keyed t + overheadOf usesPsk ts (keyedAfter usesPsk keyed t)

/-- The tokens of the next message. -/
def nextTokens (h : Handshake) : Option (List Token) := h.pattern.messages[h.messageNumber]?

/-- The growth over its payload of the next message; zero if no message is due. -/
def nextOverhead (h : Handshake) : Nat :=
  match h.symmetric, h.nextTokens with
  | some symmetric, some tokens =>
    if h.phase.awaitsMessage then overheadOf h.pattern.usesPsk tokens symmetric.hasKey else 0
  | _, _ => 0

/-! ## Before the first message -/

/-- The public key of a party that a pre-message token names; `own` if the party is this one. -/
def premessageKey (slots : KeySlots) (own : Bool) (t : Token) : Except Error PublicKey :=
  let found : Except Error (Option PublicKey) :=
    match t with
    | .e => .ok (if own then slots.localEphemeralPublic else slots.remoteEphemeral)
    | .s => .ok (if own then slots.localStaticPublic else slots.remoteStatic)
    | _ => .error .wrongState
  match found with
  | .ok (some key) => .ok key
  | .ok none => .error .missingKey
  | .error e => .error e

/-- Mixes the bytes of a public key into the hash; those of an ephemeral key in a pattern with a
pre-shared key also into the chaining key. -/
def mixPublic (p : Pattern) (s : SymmetricState) (t : Token) (key : Bytes) : SymmetricState :=
  let s := s.mixHash key
  if t = .e && p.usesPsk then s.mixKey key else s

/-- Mixes the keys that the pattern assumes known, the initiator's before the responder's. -/
def mixPremessages (p : Pattern) (role : Role) (slots : KeySlots) (s : SymmetricState) :
    Except Error SymmetricState :=
  let known := Role.all.flatMap fun owner =>
    (p.premessage owner).map fun t => (owner, t)
  known.foldlM (fun s (owner, t) => do
    let key ← premessageKey slots (owner == role) t
    return mixPublic p s t key.bytes) s

/-- What message processing begins with: the role, the tokens, and the symmetric state, into which
the pre-message keys have been mixed if the message is the first. -/
def openMessage (h : Handshake) : Except Error (Role × List Token × SymmetricState) :=
  match h.role, h.symmetric with
  | some role, some symmetric => do
    let symmetric ←
      if h.messageNumber = 0 then mixPremessages h.pattern role h.slots symmetric
      else .ok symmetric
    match h.nextTokens with
    | some tokens => return (role, tokens, symmetric)
    | none => .error .wrongState
  | _, _ => .error .wrongState

/-! ## Tokens that carry no key -/

/-- Mixes the secret that a token stands for into the symmetric state. Tokens that carry keys stand
for none. -/
def mixSecret (slots : KeySlots) (psk : Option PresharedKey) (role : Role) (s : SymmetricState) :
    Token → Except Error SymmetricState
  | .ee => slots.ee.map fun secret => s.mixKey secret.bytes
  | .es => (slots.es role).map fun secret => s.mixKey secret.bytes
  | .se => (slots.se role).map fun secret => s.mixKey secret.bytes
  | .ss => slots.ss.map fun secret => s.mixKey secret.bytes
  | .psk =>
    match psk with
    | some key => .ok (s.mixKeyAndHash key.bytes)
    | none => .error .missingKey
  | .e | .s => .ok s

/-! ## Writing -/

/-- A message in the course of being written. -/
structure Writing where
  /-- The key slots so far. -/
  slots : KeySlots
  /-- The symmetric state so far. -/
  symmetric : SymmetricState
  /-- The bytes written so far. -/
  written : Bytes
  /-- The part of the output area that is still free. -/
  free : Bytes
  /-- What is left of the source of randomness. -/
  entropy : Entropy

/-- A failure in the course of a message, with what had become of it until then. -/
structure Interrupted (σ : Type) where
  error : Error
  /-- What had become of it. -/
  reached : σ

namespace Writing

/-- Appends bytes as they are. -/
def append (w : Writing) (bytes : Bytes) : Except (Interrupted Writing) Writing :=
  if w.free.length < bytes.length then .error ⟨.bufferTooSmall, w⟩
  else .ok { w with written := w.written ++ bytes, free := w.free.drop bytes.length }

/-- Appends bytes encrypted, and mixes the ciphertext into the hash. -/
def appendEncrypted (w : Writing) (plaintext : Bytes) : Except (Interrupted Writing) Writing :=
  let o := w.symmetric.encryptAndHash plaintext w.free
  match o.result with
  | .ok n =>
    .ok { w with
      symmetric := o.state
      written := w.written ++ o.area.take n
      free := o.area.drop n }
  | .error e => .error ⟨e, { w with symmetric := o.state, free := o.area }⟩

/-- Processes one token of a message that is being written. -/
def token (p : Pattern) (role : Role) (psk : Option PresharedKey) (w : Writing) (t : Token) :
    Except (Interrupted Writing) Writing :=
  match t with
  | .e => do
    let (key, slots, entropy) := w.slots.generateLocalEphemeral w.entropy
    let w ← { w with slots, entropy }.append key.bytes
    return { w with symmetric := mixPublic p w.symmetric .e key.bytes }
  | .s =>
    match w.slots.localStaticPublic with
    | some key => w.appendEncrypted key.bytes
    | none => .error ⟨.missingKey, w⟩
  | t =>
    match mixSecret w.slots psk role w.symmetric t with
    | .ok symmetric => .ok { w with symmetric }
    | .error e => .error ⟨e, w⟩

/-- Processes the tokens of a message in order, and then its payload. -/
def run (p : Pattern) (role : Role) (psk : Option PresharedKey) (tokens : List Token)
    (payload : Bytes) (w : Writing) : Except (Interrupted Writing) Writing := do
  let w ← tokens.foldlM (token p role psk) w
  w.appendEncrypted payload

end Writing

/-- Why a message call is refused in a phase other than `expected`, and the handshake afterwards: a
call out of turn makes it fail. -/
def refusal? (h : Handshake) (expected : Phase) : Option (Handshake × Error) :=
  if h.phase = expected then none
  else
    match h.phase with
    | .failed => some (h, .handshakeFailed)
    | .write | .read => some (h.fail .wrongState, .wrongState)
    | _ => some (h, .wrongState)

/-- The handshake after a message: with the next message due in the other direction, or with all
messages through. -/
def advance (h : Handshake) : Handshake :=
  let n := h.messageNumber + 1
  let phase : Phase :=
    if h.pattern.messages.length ≤ n then .split
    else if h.phase = .write then .read
    else .write
  { h with messageNumber := n, phase }

/-- Writes the next message with `payload` to the front of `area`. An ephemeral pair is made from
`entropy` if the message sends one and none has been set. Gives the outcome and what is left of the
source. -/
def write (h : Handshake) (payload area : Bytes) (entropy : Entropy) :
    Outcome Handshake × Entropy :=
  match h.refusal? .write with
  | some (h, e) => (⟨h, area, .error e⟩, entropy)
  | none =>
    let size := h.nextOverhead + payload.length
    if area.length < size then (⟨h, area, .error .bufferTooSmall⟩, entropy)
    else
      match h.openMessage with
      | .error e => (⟨h.fail e, area, .error e⟩, entropy)
      | .ok (role, tokens, symmetric) =>
        let w : Writing :=
          { slots := h.slots, symmetric, written := [], free := area.take size, entropy }
        match w.run h.pattern role h.psk tokens payload with
        | .ok w =>
          (⟨{ h with slots := w.slots, symmetric := some w.symmetric }.advance,
            w.written ++ w.free ++ area.drop size, .ok w.written.length⟩, w.entropy)
        | .error stop =>
          let w := stop.reached
          (⟨{ h with slots := w.slots }.fail stop.error,
            w.written ++ w.free ++ area.drop size, .error stop.error⟩, w.entropy)

/-! ## Reading -/

/-- A message in the course of being read. -/
structure Reading where
  /-- The key slots so far. -/
  slots : KeySlots
  /-- The symmetric state so far. -/
  symmetric : SymmetricState
  /-- The part of the message that has not been read yet. -/
  rest : Bytes
deriving DecidableEq, Repr

namespace Reading

/-- Takes the next `n` bytes of the message. -/
def take (r : Reading) (n : Nat) : Except (Interrupted Reading) (Bytes × Reading) :=
  if r.rest.length < n then .error ⟨.badMessage, r⟩
  else .ok (r.rest.take n, { r with rest := r.rest.drop n })

/-- The public key of 32 bytes. -/
def publicKey (r : Reading) (bytes : Bytes) : Except (Interrupted Reading) PublicKey :=
  (PublicKey.ofBytes bytes).mapError fun e => ⟨e, r⟩

/-- Processes one token of a message that is being read. -/
def token (p : Pattern) (role : Role) (psk : Option PresharedKey) (r : Reading) (t : Token) :
    Except (Interrupted Reading) Reading :=
  match t with
  | .e => do
    let (bytes, r) ← r.take PublicKey.length
    let key ← r.publicKey bytes
    return { r with
      symmetric := mixPublic p r.symmetric .e bytes
      slots := r.slots.setRemoteEphemeral key }
  | .s => do
    let (ciphertext, r) ← r.take (PublicKey.length + r.symmetric.overhead)
    let o := r.symmetric.decryptAndHash ciphertext (Bytes.zeros PublicKey.length)
    let r := { r with symmetric := o.state }
    match o.result with
    | .ok _ =>
      let key ← r.publicKey o.area
      return { r with slots := r.slots.setRemoteStatic key }
    | .error e => .error ⟨e, r⟩
  | t =>
    match mixSecret r.slots psk role r.symmetric t with
    | .ok symmetric => .ok { r with symmetric }
    | .error e => .error ⟨e, r⟩

/-- Decrypts what is left of the message to the front of `area`. -/
def payload (r : Reading) (area : Bytes) : Outcome Reading :=
  if r.rest.length < r.symmetric.overhead then ⟨r, area, .error .badMessage⟩
  else
    (r.symmetric.decryptAndHash r.rest area).mapState fun symmetric =>
      { r with symmetric, rest := [] }

/-- Processes the tokens of a message in order, and then its payload, which goes to the front of
`area`. -/
def run (p : Pattern) (role : Role) (psk : Option PresharedKey) (tokens : List Token)
    (area : Bytes) (r : Reading) : Outcome Reading :=
  match tokens.foldlM (token p role psk) r with
  | .ok r => r.payload area
  | .error stop => ⟨stop.reached, area, .error stop.error⟩

end Reading

/-- The handshake after its message has been read as `o` tells: it goes on with what reading has
left, or fails. -/
def settleRead (h : Handshake) (o : Outcome Reading) : Outcome Handshake :=
  let h := { h with slots := o.state.slots }
  match o.result with
  | .ok n => ⟨{ h with symmetric := some o.state.symmetric }.advance, o.area, .ok n⟩
  | .error e => ⟨h.fail e, o.area, .error e⟩

/-- Reads the next message and puts its payload to the front of `area`. -/
def read (h : Handshake) (message area : Bytes) : Outcome Handshake :=
  match h.refusal? .read with
  | some (h, e) => ⟨h, area, .error e⟩
  | none =>
    if message.length < h.nextOverhead then ⟨h.fail .badMessage, area, .error .badMessage⟩
    else if area.length < message.length - h.nextOverhead then
      ⟨h, area, .error .bufferTooSmall⟩
    else
      match h.openMessage with
      | .error e => ⟨h.fail e, area, .error e⟩
      | .ok (role, tokens, symmetric) =>
        let r : Reading := { slots := h.slots, symmetric, rest := message }
        h.settleRead (r.run h.pattern role h.psk tokens area)

end NoiseChannel.Handshake
