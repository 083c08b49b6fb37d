import NoiseChannel.Proofs.Cipher
import NoiseChannel.Symmetric.State

/-!
# What a symmetric state does with a message

Every operation on hash, chaining key or cipher ends the prologue phase, keeps the cipher's key and
the chaining key at full length and answers as the cipher does. `SymmetricState.ciphertext` and
`SymmetricState.passed` say what a message becomes and what it leaves behind; two states of equal
contents of which one encrypts and the other decrypts are left with equal contents.
-/

namespace NoiseChannel.SymmetricState

/-! ## The prologue phase -/

@[simp] theorem endPrologue_prologue (s : SymmetricState) : s.endPrologue.prologue = none := by
  unfold endPrologue
  split
  · rfl
  · assumption

@[simp] theorem endPrologue_cipher (s : SymmetricState) : s.endPrologue.cipher = s.cipher := by
  unfold endPrologue
  split <;> rfl

@[simp] theorem endPrologue_chainingKey (s : SymmetricState) :
    s.endPrologue.chainingKey = s.chainingKey := by
  unfold endPrologue
  split <;> rfl

@[simp] theorem inPrologue_endPrologue (s : SymmetricState) :
    s.endPrologue.inPrologue = false := by
  rw [inPrologue, endPrologue_prologue]
  rfl

theorem endPrologue_of_ended {s : SymmetricState} (h : s.inPrologue = false) :
    s.endPrologue = s := by
  have hnone : s.prologue = none := by simpa [inPrologue] using h
  rw [endPrologue, hnone]

/-- The end of the prologue phase changes a state exactly if the phase has not ended before. -/
theorem endPrologue_eq_self_iff (s : SymmetricState) :
    s.endPrologue = s ↔ s.inPrologue = false := by
  refine ⟨fun hsame => ?_, endPrologue_of_ended⟩
  rw [← hsame]
  exact s.inPrologue_endPrologue

@[simp] theorem endPrologue_endPrologue (s : SymmetricState) :
    s.endPrologue.endPrologue = s.endPrologue :=
  endPrologue_of_ended s.inPrologue_endPrologue

theorem mixPrologue_ended {s : SymmetricState} (h : s.inPrologue = false) (piece : Bytes) :
    s.mixPrologue piece = .error .wrongState := by
  have hnone : s.prologue = none := by simpa [inPrologue] using h
  rw [mixPrologue, hnone]

theorem mixPrologue_ok {s : SymmetricState} (h : s.inPrologue = true) (piece : Bytes) :
    ∃ s', s.mixPrologue piece = .ok s' ∧ s'.inPrologue = true ∧ s'.cipher = s.cipher := by
  obtain ⟨running, hr⟩ := Option.isSome_iff_exists.mp h
  exact ⟨{ s with prologue := some (running.update piece) }, by rw [mixPrologue, hr], rfl, rfl⟩

theorem mixPrologue_cipher {s s' : SymmetricState} {piece : Bytes}
    (h : s.mixPrologue piece = .ok s') : s'.cipher = s.cipher := by
  unfold mixPrologue at h
  split at h
  · cases h
    rfl
  · cases h

@[simp] theorem inPrologue_mixHash (s : SymmetricState) (d : Bytes) :
    (s.mixHash d).inPrologue = false := by
  simp [mixHash, inPrologue]

/-! ## The cipher's key -/

/-- The cipher's key, if there is one, has its full length. -/
def WellKeyed (s : SymmetricState) : Prop := s.cipher.WellKeyed

@[simp] theorem mixHash_cipher (s : SymmetricState) (d : Bytes) :
    (s.mixHash d).cipher = s.cipher := by
  simp [mixHash]

@[simp] theorem mixHash_chainingKey (s : SymmetricState) (d : Bytes) :
    (s.mixHash d).chainingKey = s.chainingKey := by
  simp [mixHash]

@[simp] theorem hasKey_mixHash (s : SymmetricState) (d : Bytes) :
    (s.mixHash d).hasKey = s.hasKey := by
  simp [hasKey]

@[simp] theorem hasKey_endPrologue (s : SymmetricState) : s.endPrologue.hasKey = s.hasKey := by
  simp [hasKey]

@[simp] theorem hasKey_mixKey (s : SymmetricState) (m : Bytes) : (s.mixKey m).hasKey = true := rfl

theorem WellKeyed.mixHash {s : SymmetricState} (h : s.WellKeyed) (d : Bytes) :
    (s.mixHash d).WellKeyed := by
  rw [WellKeyed, mixHash_cipher]
  exact h

/-- A key that comes out of key derivation has its full length. -/
theorem wellKeyed_mixKey (s : SymmetricState) (m : Bytes) : (s.mixKey m).WellKeyed :=
  CipherState.wellKeyed_setKey _ (by simp [Aead.keyLength])

theorem wellKeyed_mixKeyAndHash (s : SymmetricState) (m : Bytes) : (s.mixKeyAndHash m).WellKeyed :=
  CipherState.wellKeyed_setKey _ (by simp [Aead.keyLength])

/-! ## Messages -/

/-- The bytes that stand for `plaintext` in a message. -/
def ciphertext (s : SymmetricState) (plaintext : Bytes) : Bytes :=
  s.cipher.ciphertext s.endPrologue.hash plaintext

/-- The state after a message with ciphertext `sent` has gone through. -/
def passed (s : SymmetricState) (sent : Bytes) : SymmetricState :=
  { s.endPrologue with cipher := s.cipher.passed }.mixHash sent

@[simp] theorem passed_cipher (s : SymmetricState) (sent : Bytes) :
    (s.passed sent).cipher = s.cipher.passed := by
  simp [passed]

@[simp] theorem hasKey_passed (s : SymmetricState) (sent : Bytes) :
    (s.passed sent).hasKey = s.hasKey := by
  simp [hasKey]

@[simp] theorem passed_chainingKey (s : SymmetricState) (sent : Bytes) :
    (s.passed sent).chainingKey = s.chainingKey := by
  simp [passed]

@[simp] theorem inPrologue_passed (s : SymmetricState) (sent : Bytes) :
    (s.passed sent).inPrologue = false :=
  inPrologue_mixHash _ _

theorem WellKeyed.passed {s : SymmetricState} (h : s.WellKeyed) (sent : Bytes) :
    (s.passed sent).WellKeyed := by
  rw [WellKeyed, passed_cipher]
  exact CipherState.WellKeyed.passed h

/-! ## The length of the keys -/

/-- Cipher key and chaining key have the length that digests have. -/
structure Sized (s : SymmetricState) : Prop where
  wellKeyed : s.WellKeyed
  length_chainingKey : s.chainingKey.length = 32

theorem Sized.endPrologue {s : SymmetricState} (h : s.Sized) : s.endPrologue.Sized := by
  refine ⟨?_, ?_⟩
  · rw [WellKeyed, endPrologue_cipher]
    exact h.wellKeyed
  · rw [endPrologue_chainingKey]
    exact h.length_chainingKey

theorem Sized.mixHash {s : SymmetricState} (h : s.Sized) (d : Bytes) : (s.mixHash d).Sized := by
  refine ⟨h.wellKeyed.mixHash d, ?_⟩
  rw [mixHash_chainingKey]
  exact h.length_chainingKey

/-- Key derivation gives both keys. -/
theorem sized_mixKey (s : SymmetricState) (m : Bytes) : (s.mixKey m).Sized :=
  ⟨wellKeyed_mixKey s m, DigestKind.length_hmac _ _ _⟩

theorem sized_mixKeyAndHash (s : SymmetricState) (m : Bytes) : (s.mixKeyAndHash m).Sized := by
  refine ⟨wellKeyed_mixKeyAndHash s m, ?_⟩
  have hck : (s.mixKeyAndHash m).chainingKey =
      (s.endPrologue.digest.hkdf3 s.endPrologue.chainingKey m).1 := by
    simp only [mixKeyAndHash, mixHash_chainingKey]
  rw [hck]
  exact DigestKind.length_hmac _ _ _

theorem Sized.passed {s : SymmetricState} (h : s.Sized) (sent : Bytes) : (s.passed sent).Sized := by
  refine ⟨h.wellKeyed.passed sent, ?_⟩
  rw [passed_chainingKey]
  exact h.length_chainingKey

/-! ## Encryption and decryption -/

theorem length_ciphertext {s : SymmetricState} (h : s.WellKeyed) (plaintext : Bytes) :
    (s.ciphertext plaintext).length = plaintext.length + s.overhead :=
  CipherState.length_ciphertext h _ _

/-- Encryption answers as the cipher does. -/
theorem encryptAndHash_result (s : SymmetricState) (plaintext area : Bytes) :
    (s.encryptAndHash plaintext area).result =
      (s.cipher.encrypt s.endPrologue.hash plaintext area).result := by
  simp only [encryptAndHash, Outcome.mapState, endPrologue_cipher]
  split <;> rfl

/-- What encryption answers depends on counter and lengths only. -/
theorem result_encryptAndHash (s : SymmetricState) (plaintext area : Bytes) :
    (s.encryptAndHash plaintext area).result =
      if s.cipher.Exhausted then .error .nonceExhausted
      else if area.length < plaintext.length + s.overhead then .error .bufferTooSmall
      else .ok (plaintext.length + s.overhead) := by
  rw [encryptAndHash_result]
  exact CipherState.result_encrypt s.cipher s.endPrologue.hash plaintext area

theorem length_area_encryptAndHash (s : SymmetricState) (plaintext area : Bytes) :
    (s.encryptAndHash plaintext area).area.length = area.length := by
  have h := CipherState.length_area_encrypt s.cipher s.endPrologue.hash plaintext area
  simp only [encryptAndHash, Outcome.mapState, endPrologue_cipher]
  split <;> exact h

/-- A refused encryption ends the prologue phase and does nothing else. -/
theorem encryptAndHash_error {s : SymmetricState} {plaintext area : Bytes} {e : Error}
    (h : (s.encryptAndHash plaintext area).result = .error e) :
    s.encryptAndHash plaintext area = ⟨s.endPrologue, area, .error e⟩ := by
  rw [encryptAndHash_result] at h
  simp only [encryptAndHash, Outcome.mapState, endPrologue_cipher, CipherState.encrypt_error h]
  rw [← endPrologue_cipher]

/-- What has been encrypted has gone through. -/
theorem state_encryptAndHash_ok {s : SymmetricState} {plaintext area : Bytes} {n : Nat}
    (h : (s.encryptAndHash plaintext area).result = .ok n) :
    (s.encryptAndHash plaintext area).state =
      s.passed ((s.encryptAndHash plaintext area).area.take n) := by
  rw [encryptAndHash_result] at h
  have hstate := CipherState.state_encrypt_ok h
  simp only [encryptAndHash, Outcome.mapState, endPrologue_cipher, h, hstate]
  rfl

/-- Encryption neither makes nor loses the cipher's key. -/
theorem hasKey_encryptAndHash (s : SymmetricState) (plaintext area : Bytes) :
    (s.encryptAndHash plaintext area).state.hasKey = s.hasKey := by
  cases h : (s.encryptAndHash plaintext area).result with
  | ok n => rw [state_encryptAndHash_ok h, hasKey_passed]
  | error e => rw [encryptAndHash_error h, hasKey_endPrologue]

theorem inPrologue_encryptAndHash (s : SymmetricState) (plaintext area : Bytes) :
    (s.encryptAndHash plaintext area).state.inPrologue = false := by
  cases h : (s.encryptAndHash plaintext area).result with
  | ok n => rw [state_encryptAndHash_ok h, inPrologue_passed]
  | error e => rw [encryptAndHash_error h, inPrologue_endPrologue]

/-- Encryption into an area with room succeeds: the ciphertext stands at the front of the area, and
what lies behind it is untouched. -/
theorem encryptAndHash_ok {s : SymmetricState} (hs : s.WellKeyed) (hn : ¬ s.cipher.Exhausted)
    {plaintext area : Bytes} (hroom : plaintext.length + s.overhead ≤ area.length) :
    s.encryptAndHash plaintext area =
      ⟨s.passed (s.ciphertext plaintext),
        s.ciphertext plaintext ++ area.drop (plaintext.length + s.overhead),
        .ok (plaintext.length + s.overhead)⟩ := by
  have henc : s.cipher.encrypt s.endPrologue.hash plaintext area = _ :=
    CipherState.encrypt_ok hs hn hroom
  have htake : (s.cipher.ciphertext s.endPrologue.hash plaintext ++
        area.drop (plaintext.length + s.cipher.overhead)).take
          (plaintext.length + s.cipher.overhead) =
      s.cipher.ciphertext s.endPrologue.hash plaintext :=
    List.take_left' (CipherState.length_ciphertext hs _ _)
  simp only [encryptAndHash, Outcome.mapState, endPrologue_cipher, henc, htake]
  rfl

/-- What has been encrypted stands at the front of the area. -/
theorem encryptAndHash_sent {s : SymmetricState} (hs : s.WellKeyed) {plaintext area : Bytes}
    {n : Nat} (h : (s.encryptAndHash plaintext area).result = .ok n) :
    ¬ s.cipher.Exhausted ∧
      (s.encryptAndHash plaintext area).area.take n = s.ciphertext plaintext := by
  have hres := h
  rw [result_encryptAndHash] at hres
  by_cases hn : s.cipher.Exhausted
  · rw [if_pos hn] at hres
    cases hres
  by_cases hroom : area.length < plaintext.length + s.overhead
  · rw [if_neg hn, if_pos hroom] at hres
    cases hres
  rw [if_neg hn, if_neg hroom] at hres
  cases hres
  refine ⟨hn, ?_⟩
  rw [encryptAndHash_ok hs hn (Nat.not_lt.mp hroom)]
  exact List.take_left' (length_ciphertext hs plaintext)

/-- Decryption answers as the cipher does. -/
theorem decryptAndHash_result (s : SymmetricState) (message area : Bytes) :
    (s.decryptAndHash message area).result =
      (s.cipher.decrypt s.endPrologue.hash message area).result := by
  simp only [decryptAndHash, Outcome.mapState, endPrologue_cipher]
  split <;> rfl

/-- What decryption answers depends on counter, lengths and whether the message authenticates. -/
theorem result_decryptAndHash (s : SymmetricState) (message area : Bytes) :
    (s.decryptAndHash message area).result =
      if s.cipher.Exhausted then .error .nonceExhausted
      else if message.length < s.overhead then .error .badMessage
      else if area.length < message.length - s.overhead then .error .bufferTooSmall
      else if (s.cipher.plaintext? s.endPrologue.hash message).isSome then
        .ok (message.length - s.overhead)
      else .error .cryptoFailed := by
  rw [decryptAndHash_result]
  exact CipherState.result_decrypt s.cipher s.endPrologue.hash message area

/-- A refused decryption ends the prologue phase and leaves the rest of the state as it is. -/
theorem decryptAndHash_error {s : SymmetricState} {message area : Bytes} {e : Error}
    (h : (s.decryptAndHash message area).result = .error e) :
    (s.decryptAndHash message area).state = s.endPrologue := by
  rw [decryptAndHash_result] at h
  have hstate : (s.cipher.decrypt s.endPrologue.hash message area).state = s.cipher := by
    rw [CipherState.state_decrypt, h]
    rfl
  simp only [decryptAndHash, Outcome.mapState, endPrologue_cipher, h, hstate]
  rw [← endPrologue_cipher]

/-- What has been decrypted has gone through. -/
theorem state_decryptAndHash_ok {s : SymmetricState} {message area : Bytes} {n : Nat}
    (h : (s.decryptAndHash message area).result = .ok n) :
    (s.decryptAndHash message area).state = s.passed message := by
  rw [decryptAndHash_result] at h
  have hstate := CipherState.state_decrypt_ok h
  simp only [decryptAndHash, Outcome.mapState, endPrologue_cipher, h, hstate]
  rfl

/-- With room for the plaintext, decryption is not refused for want of it. -/
theorem result_decryptAndHash_ne {s : SymmetricState} {message area : Bytes}
    (hroom : message.length - s.overhead ≤ area.length) :
    (s.decryptAndHash message area).result ≠ .error .bufferTooSmall := by
  intro hres
  rw [result_decryptAndHash, if_neg (Nat.not_lt.mpr hroom)] at hres
  split at hres
  · cases hres
  · split at hres
    · cases hres
    · split at hres <;> cases hres

/-- A message that has room for the tag is not found too short. -/
theorem result_decryptAndHash_ne_badMessage {s : SymmetricState} {message area : Bytes}
    (htag : s.overhead ≤ message.length) :
    (s.decryptAndHash message area).result ≠ .error .badMessage := by
  intro hres
  rw [result_decryptAndHash, if_neg (Nat.not_lt.mpr htag)] at hres
  split at hres
  · cases hres
  · split at hres
    · cases hres
    · split at hres <;> cases hres

theorem hasKey_decryptAndHash (s : SymmetricState) (message area : Bytes) :
    (s.decryptAndHash message area).state.hasKey = s.hasKey := by
  cases h : (s.decryptAndHash message area).result with
  | ok n => rw [state_decryptAndHash_ok h, hasKey_passed]
  | error e => rw [decryptAndHash_error h, hasKey_endPrologue]

theorem inPrologue_decryptAndHash (s : SymmetricState) (message area : Bytes) :
    (s.decryptAndHash message area).state.inPrologue = false := by
  cases h : (s.decryptAndHash message area).result with
  | ok n => rw [state_decryptAndHash_ok h, inPrologue_passed]
  | error e => rw [decryptAndHash_error h, inPrologue_endPrologue]

theorem length_area_decryptAndHash (s : SymmetricState) (message area : Bytes) :
    (s.decryptAndHash message area).area.length = area.length := by
  have h := CipherState.length_area_decrypt s.cipher s.endPrologue.hash message area
  simp only [decryptAndHash, Outcome.mapState, endPrologue_cipher]
  split <;> exact h

/-- Decryption by a state of equal contents, into an area with room for the plaintext, gives the
plaintext back and leaves equal contents. -/
theorem decryptAndHash_ciphertext {s : SymmetricState} (hs : s.WellKeyed)
    (hn : ¬ s.cipher.Exhausted) {plaintext area : Bytes} (hroom : plaintext.length ≤ area.length) :
    (s.decryptAndHash (s.ciphertext plaintext) area).result = .ok plaintext.length ∧
      (s.decryptAndHash (s.ciphertext plaintext) area).state = s.passed (s.ciphertext plaintext) ∧
      (s.decryptAndHash (s.ciphertext plaintext) area).area.take plaintext.length = plaintext := by
  have hdec := @CipherState.decrypt_ciphertext s.cipher hs hn s.endPrologue.hash _ _ hroom
  obtain ⟨hres, hstate, harea⟩ := hdec
  simp only [decryptAndHash, Outcome.mapState, endPrologue_cipher, ciphertext, hres, hstate]
  exact ⟨trivial, rfl, harea⟩

/-! ## The end of the handshake -/

/-- Both ciphers of the transport phase have keys of full length, counted from zero. -/
theorem split_ciphers (s : SymmetricState) :
    ∃ first second : Bytes, s.split =
      (s.endPrologue.hash, ⟨s.cipher.kind, some first, 0⟩, ⟨s.cipher.kind, some second, 0⟩) := by
  exact ⟨_, _, by simp only [split, endPrologue_cipher]; rfl⟩

end NoiseChannel.SymmetricState
