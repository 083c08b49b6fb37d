import NoiseChannel.Aead
import NoiseChannel.Outcome
import NoiseChannel.Text

/-!
# Cipher states

A key of an authenticated cipher with the counter of the messages sealed or opened under it. Without
a key, data pass through unchanged. A refused call keeps key and counter; the last counter value is
reserved for the replacement of the key.
-/

namespace NoiseChannel

/-- A cipher, perhaps a key, and the counter for the next message. -/
structure CipherState where
  kind : CipherKind
  /-- The key of 32 bytes, once there is one. -/
  key : Option Bytes
  /-- The counter that the next message is sealed or opened under. -/
  nonce : UInt64
deriving DecidableEq, Repr

namespace CipherState

/-- The counter that no message is sealed or opened under. -/
def reservedNonce : UInt64 := 0xffffffffffffffff

/-- A cipher state without a key. -/
def empty (kind : CipherKind) : CipherState := ⟨kind, none, 0⟩

/-- Sets the key and starts counting at zero. -/
def setKey (s : CipherState) (key : Bytes) : CipherState :=
  { s with key := some key, nonce := 0 }

def hasKey (s : CipherState) : Bool := s.key.isSome

/-- Sets the counter, for messages that arrive out of order. -/
def setNonce (s : CipherState) (nonce : UInt64) : CipherState := { s with nonce }

/-- The growth of a message when it is encrypted. -/
def overhead (s : CipherState) : Nat := if s.hasKey then Aead.tagLength else 0

/-- Forgets the key and counts from zero again. -/
def clear (s : CipherState) : CipherState := { s with key := none, nonce := 0 }

/-- Replaces the key, if there is one, by the one derived from it. The counter goes on. -/
def rekey (s : CipherState) : CipherState :=
  { s with key := s.key.map (Aead.rekeyed s.kind) }

/-- The state after a message has been sealed or opened. -/
def advance (s : CipherState) : CipherState := { s with nonce := s.nonce + 1 }

/-- Passes data through to the front of `area`. -/
def copy (s : CipherState) (data area : Bytes) : Outcome CipherState :=
  if area.length < data.length then ⟨s, area, .error .bufferTooSmall⟩
  else ⟨s, area.overwrite 0 data, .ok data.length⟩

/-- Encrypts `plaintext` with associated data `ad` to the front of `area`. -/
def encrypt (s : CipherState) (ad plaintext area : Bytes) : Outcome CipherState :=
  match s.key with
  | none => s.copy plaintext area
  | some key =>
    if s.nonce = reservedNonce then ⟨s, area, .error .nonceExhausted⟩
    else if area.length < plaintext.length + Aead.tagLength then
      ⟨s, area, .error .bufferTooSmall⟩
    else
      let loaded := area.overwrite 0 plaintext
      match Aead.sealInPlace s.kind key s.nonce ad loaded plaintext.length with
      | .ok (n, area) => ⟨s.advance, area, .ok n⟩
      | .error e => ⟨s, loaded, .error e⟩

/-- Opens `ciphertext`, of at least sixteen bytes, under `key` to the front of an area that holds
the plaintext. The work is done in the area where the tag fits too, else in a copy. If the tag is
wrong, the place of the plaintext is left zero. -/
def openInto (s : CipherState) (key ad ciphertext area : Bytes) : Outcome CipherState :=
  let blank := Bytes.zeros (ciphertext.length - Aead.tagLength)
  if ciphertext.length ≤ area.length then
    let loaded := area.overwrite 0 ciphertext
    match Aead.openInPlace s.kind key s.nonce ad loaded ciphertext.length with
    | .ok (n, area) => ⟨s.advance, area, .ok n⟩
    | .error e => ⟨s, loaded.overwrite 0 blank, .error e⟩
  else
    match Aead.openInPlace s.kind key s.nonce ad ciphertext ciphertext.length with
    | .ok (n, copy) => ⟨s.advance, area.overwrite 0 (copy.take n), .ok n⟩
    | .error e => ⟨s, area.overwrite 0 blank, .error e⟩

/-- Decrypts `ciphertext` with associated data `ad` to the front of `area`. Without a key it is
passed through. -/
def decrypt (s : CipherState) (ad ciphertext area : Bytes) : Outcome CipherState :=
  match s.key with
  | none => s.copy ciphertext area
  | some key =>
    if s.nonce = reservedNonce then ⟨s, area, .error .nonceExhausted⟩
    else if ciphertext.length < Aead.tagLength then ⟨s, area, .error .badMessage⟩
    else if area.length < ciphertext.length - Aead.tagLength then
      ⟨s, area, .error .bufferTooSmall⟩
    else s.openInto key ad ciphertext area

/-- Cipher and counter, and whether there is a key. -/
def describe (s : CipherState) : String :=
  Text.record "CipherState"
    [("cipher", s.kind.describe), ("has_key", Text.truth s.hasKey),
      ("nonce", toString s.nonce.toNat)] true

end CipherState

end NoiseChannel
