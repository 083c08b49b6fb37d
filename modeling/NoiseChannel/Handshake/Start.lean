import NoiseChannel.Handshake.State

/-!
# Starting and giving up handshakes

A handshake starts in a role with the first section of prologue, either afresh or as the
continuation of a failed attempt; further sections may follow until the first message. It can be
given up while a message is due, and cleared at any time.
-/

namespace NoiseChannel.Handshake

/-- The phase in which the party in `role` finds message `n`. -/
def phaseFor (p : Pattern) (role : Role) (n : Nat) : Phase :=
  if p.writer n = role then .write else .read

/-- Begins the handshake in `role`. Stale keys are forgotten first; a missing key that the protocol
needs makes the handshake fail. -/
def start (h : Handshake) (role : Role) (prologue : Bytes) : Handshake × Except Error Unit :=
  match h.phase with
  | .initial =>
    let h := { h with slots := h.pattern.forgetStale h.slots }
    if h.holds (h.protocol.needs role) then
      let suite := h.protocol.suite
      let fresh := SymmetricState.start h.protocol.name suite.cipher suite.digest
      match fresh.mixPrologue prologue with
      | .ok symmetric =>
        ({ h with
            symmetric := some symmetric
            role := some role
            messageNumber := 0
            phase := phaseFor h.pattern role 0 }, .ok ())
      | .error e => (h, .error e)
    else
      (h.fail .missingKey, .error .missingKey)
  | .failed => (h, .error .handshakeFailed)
  | _ => (h, .error .wrongState)

/-- Begins the handshake of a fallback pattern in `role` with the ephemeral key of the failed
handshake `attempt`. -/
def startFallback (h attempt : Handshake) (role : Role) (prologue : Bytes) :
    Handshake × Except Error Unit :=
  if h.pattern.isFallback && h.phase == .initial && attempt.phase == .failed then
    match h.slots.takeOver role attempt.slots with
    | .ok slots => { h with slots }.start role prologue
    | .error e => (h.fail e, .error e)
  else
    (h, .error .wrongState)

/-- Appends a section of prologue, between the start and the first message. -/
def addPrologue (h : Handshake) (prologue : Bytes) : Except Error Handshake :=
  match h.phase with
  | .write | .read =>
    if h.messageNumber = 0 then
      match h.symmetric with
      | some symmetric =>
        (symmetric.mixPrologue prologue).map fun symmetric => { h with symmetric := some symmetric }
      | none => .error .wrongState
    else
      .error .wrongState
  | .failed => .error .handshakeFailed
  | _ => .error .wrongState

/-- Gives the handshake up if a message is due, so that a fallback can continue it. -/
def abandon (h : Handshake) : Handshake :=
  if h.phase.awaitsMessage then h.fail .handshakeFailed else h

/-- Forgets every key and every secret; the handshake ends up failed. -/
def clear (h : Handshake) : Handshake :=
  { h with
    symmetric := none
    slots := .empty
    psk := none
    finalHash := none
    phase := .failed
    failure := some .handshakeFailed }

end NoiseChannel.Handshake
