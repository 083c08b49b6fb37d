import NoiseChannel.Outcome
import NoiseChannel.Primitive.AesGcm
import NoiseChannel.Primitive.ChaChaPoly

/-!
# Authenticated encryption

Both ciphers have one shape: a keystream is mixed into the plaintext by exclusive or, and a tag of
sixteen bytes over associated data and ciphertext follows it. `keystream` and `tag` are what
differs; `sealed` and `opened?` are written once over them, and `sealInPlace` and `openInPlace` run
them within a caller's buffer.
-/

namespace NoiseChannel

/-- An authenticated cipher. -/
inductive CipherKind where
  /-- ChaCha20 with Poly1305. -/
  | chaChaPoly
  /-- AES with a 256-bit key in Galois/Counter Mode. -/
  | aesGcm
deriving DecidableEq, Repr

namespace CipherKind

def all : List CipherKind := [chaChaPoly, aesGcm]

def name : CipherKind → String
  | chaChaPoly => "ChaChaPoly"
  | aesGcm => "AESGCM"

def describe : CipherKind → String
  | chaChaPoly => "ChaChaPoly"
  | aesGcm => "AesGcm"

/-- The cipher with a given component in protocol names. -/
def ofName? (s : String) : Option CipherKind := all.find? fun kind => kind.name = s

end CipherKind

namespace Aead

def keyLength : Nat := 32

/-- The length of a tag, the growth of a message when it is sealed. -/
def tagLength : Nat := 16

/-- The nonce of twelve bytes for a counter: four zeros and the counter's eight bytes, lowest first
for ChaCha20 and highest first for AES. -/
def nonce (kind : CipherKind) (counter : UInt64) : Bytes :=
  match kind with
  | .chaChaPoly => Bytes.zeros 4 ++ Bytes.ofNatLE 8 counter.toNat
  | .aesGcm => Bytes.zeros 4 ++ Bytes.ofNatBE 8 counter.toNat

/-! ## Galois/Counter Mode -/

/-- The counter block with number `i` for a nonce of twelve bytes. -/
def counterBlock (nonce : Bytes) (i : Nat) : Bytes := nonce ++ Bytes.ofNatBE 4 i

/-- The lengths of associated data and ciphertext, as the last block of the authenticated text. -/
def lengthBlock (digits : Nat → Nat → Bytes) (unit : Nat) (ad ciphertext : Bytes) : Bytes :=
  digits 8 (unit * ad.length) ++ digits 8 (unit * ciphertext.length)

/-- Associated data and ciphertext, each filled up to whole blocks, followed by their lengths. -/
def authenticated (lengths ad ciphertext : Bytes) : Bytes :=
  ad.padToMultiple 16 ++ ciphertext.padToMultiple 16 ++ lengths

/-! ## The two ciphers -/

/-- The first `n` keystream bytes under `key` and a nonce of twelve bytes. Block zero of ChaCha20
and counter block one of AES are set aside for the tag. -/
def keystream (kind : CipherKind) (key nonce : Bytes) (n : Nat) : Bytes :=
  match kind with
  | .chaChaPoly => ChaCha20.keystream key nonce 1 n
  | .aesGcm =>
    let keys := Aes256.roundKeys key
    let blocks := (List.range ((n + 15) / 16)).map fun i =>
      Aes256.encryptWith keys (counterBlock nonce (i + 2))
    blocks.flatten.take n

/-- The tag over associated data and ciphertext. -/
def tag (kind : CipherKind) (key nonce ad ciphertext : Bytes) : Bytes :=
  match kind with
  | .chaChaPoly =>
    Poly1305.tag ((ChaCha20.block key nonce 0).take 32)
      (authenticated (lengthBlock Bytes.ofNatLE 1 ad ciphertext) ad ciphertext)
  | .aesGcm =>
    let keys := Aes256.roundKeys key
    let point := Bytes.toNatBE (Aes256.encryptWith keys (Bytes.zeros 16))
    let sum := Ghash.eval point
      (authenticated (lengthBlock Bytes.ofNatBE 8 ad ciphertext) ad ciphertext)
    let pad := Bytes.toNatBE (Aes256.encryptWith keys (counterBlock nonce 1))
    Bytes.ofNatBE 16 (sum ^^^ pad)

@[simp] theorem length_tag (kind : CipherKind) (key nonce ad ciphertext : Bytes) :
    (tag kind key nonce ad ciphertext).length = tagLength := by
  cases kind <;> simp [tag, tagLength]

/-! ## Sealing and opening -/

/-- The plaintext with the keystream mixed in, and the tag. -/
def sealed (kind : CipherKind) (key : Bytes) (counter : UInt64) (ad plaintext : Bytes) : Bytes :=
  let n := nonce kind counter
  let ciphertext := Bytes.xor plaintext (keystream kind key n plaintext.length)
  ciphertext ++ tag kind key n ad ciphertext

/-- The plaintext of a sealed message of at least sixteen bytes, if its tag is right. -/
def opened? (kind : CipherKind) (key : Bytes) (counter : UInt64) (ad message : Bytes) :
    Option Bytes :=
  let n := nonce kind counter
  let ciphertext := message.take (message.length - tagLength)
  if tag kind key n ad ciphertext = message.drop (message.length - tagLength) then
    some (Bytes.xor ciphertext (keystream kind key n ciphertext.length))
  else
    none

/-- Seals the first `length` bytes of `buffer` where they stand and puts the tag behind them. Gives
the sealed length and the buffer afterwards. -/
def sealInPlace (kind : CipherKind) (key : Bytes) (counter : UInt64) (ad buffer : Bytes)
    (length : Nat) : Except Error (Nat × Bytes) :=
  if length + tagLength ≤ buffer.length then
    .ok (length + tagLength,
      buffer.overwrite 0 (sealed kind key counter ad (buffer.take length)))
  else
    .error .bufferTooSmall

/-- Opens the sealed message in the first `length` bytes of `buffer` where it stands; its tag stays
behind the plaintext. Gives the plaintext's length and the buffer afterwards, which is untouched
where the call is refused. -/
def openInPlace (kind : CipherKind) (key : Bytes) (counter : UInt64) (ad buffer : Bytes)
    (length : Nat) : Except Error (Nat × Bytes) :=
  if tagLength ≤ length ∧ length ≤ buffer.length then
    match opened? kind key counter ad (buffer.take length) with
    | some plaintext => .ok (length - tagLength, buffer.overwrite 0 plaintext)
    | none => .error .cryptoFailed
  else
    .error .badMessage

/-- The key that replaces `key`: zeros sealed under the last counter, without their tag. -/
def rekeyed (kind : CipherKind) (key : Bytes) : Bytes :=
  (sealed kind key 0xffffffffffffffff [] (Bytes.zeros keyLength)).take keyLength

end Aead

end NoiseChannel
