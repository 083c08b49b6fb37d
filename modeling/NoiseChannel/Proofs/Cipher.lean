import NoiseChannel.Proofs.Keystream
import NoiseChannel.Symmetric.CipherState

/-!
# What a cipher state does with a message

`CipherState.encrypt` and `CipherState.decrypt` work in an area that the caller lends. Here they are
described by what they compute: `ciphertext` and `plaintext?` are the bytes that go out and come
back, `passed` is the state after a message, and the result of a call is a function of lengths,
counter and these. Decryption undoes encryption by a state of equal contents.
-/

namespace NoiseChannel.CipherState

/-! ## The bytes of a message -/

/-- The bytes that stand for `plaintext` in a message. -/
def ciphertext (s : CipherState) (ad plaintext : Bytes) : Bytes :=
  match s.key with
  | none => plaintext
  | some key => Aead.sealed s.kind key s.nonce ad plaintext

/-- The bytes that a message stands for, if it authenticates. -/
def plaintext? (s : CipherState) (ad message : Bytes) : Option Bytes :=
  match s.key with
  | none => some message
  | some key => Aead.opened? s.kind key s.nonce ad message

/-- The state after a message has gone through: the counter counts messages under a key. -/
def passed (s : CipherState) : CipherState :=
  match s.key with
  | none => s
  | some _ => s.advance

/-- Whether the counter of a key has reached the reserved value. -/
def Exhausted (s : CipherState) : Prop := s.hasKey = true ∧ s.nonce = reservedNonce

instance (s : CipherState) : Decidable s.Exhausted := inferInstanceAs (Decidable (_ ∧ _))

/-- The key, if there is one, has its full length. -/
def WellKeyed (s : CipherState) : Prop := ∀ key ∈ s.key, key.length = Aead.keyLength

theorem wellKeyed_empty (kind : CipherKind) : (empty kind).WellKeyed := by
  intro key hkey
  cases hkey

theorem wellKeyed_setKey (s : CipherState) {key : Bytes} (h : key.length = Aead.keyLength) :
    (s.setKey key).WellKeyed := by
  intro k hk
  cases hk
  exact h

@[simp] theorem hasKey_passed (s : CipherState) : s.passed.hasKey = s.hasKey := by
  rcases s with ⟨kind, _ | key, nonce⟩ <;> rfl

theorem WellKeyed.passed {s : CipherState} (h : s.WellKeyed) : s.passed.WellKeyed := by
  rcases s with ⟨kind, _ | key, nonce⟩ <;> exact h

/-- A message takes one value of the counter at most. -/
theorem toNat_nonce_passed_le (s : CipherState) : s.passed.nonce.toNat ≤ s.nonce.toNat + 1 := by
  rcases s with ⟨kind, _ | key, nonce⟩
  · exact Nat.le_succ _
  · show (nonce + 1).toNat ≤ nonce.toNat + 1
    rw [UInt64.toNat_add]
    exact Nat.mod_le _ _

/-- A counter below the reserved value does not stand in the way of a message. -/
theorem not_exhausted {s : CipherState} (h : s.nonce.toNat < reservedNonce.toNat) :
    ¬ s.Exhausted := by
  rintro ⟨-, hn⟩
  rw [hn] at h
  exact Nat.lt_irrefl _ h

theorem length_ciphertext {s : CipherState} (h : s.WellKeyed) (ad plaintext : Bytes) :
    (s.ciphertext ad plaintext).length = plaintext.length + s.overhead := by
  rcases s with ⟨kind, _ | key, nonce⟩
  · rfl
  · exact Aead.length_sealed kind (h key rfl) nonce ad plaintext

/-- Decryption by a state of equal contents gives the plaintext back. -/
theorem plaintext_ciphertext {s : CipherState} (h : s.WellKeyed) (ad plaintext : Bytes) :
    s.plaintext? ad (s.ciphertext ad plaintext) = some plaintext := by
  rcases s with ⟨kind, _ | key, nonce⟩
  · rfl
  · exact Aead.opened_sealed kind (h key rfl) nonce ad plaintext

/-! ## Encryption -/

/-- What encryption answers depends on counter and lengths only. -/
theorem result_encrypt (s : CipherState) (ad plaintext area : Bytes) :
    (s.encrypt ad plaintext area).result =
      if s.Exhausted then .error .nonceExhausted
      else if area.length < plaintext.length + s.overhead then .error .bufferTooSmall
      else .ok (plaintext.length + s.overhead) := by
  rcases s with ⟨kind, _ | key, nonce⟩
  · simp only [encrypt, copy, Exhausted, hasKey, overhead, Option.isSome_none, Bool.false_eq_true,
      false_and, if_false, Nat.add_zero]
    split <;> rfl
  · simp only [encrypt, Exhausted, hasKey, overhead, Option.isSome_some, true_and, if_true]
    split
    · rfl
    · split
      · rfl
      · have hfits : plaintext.length + Aead.tagLength ≤ (area.overwrite 0 plaintext).length := by
          rw [Bytes.length_overwrite_zero (by omega)]
          omega
        simp only [Aead.sealInPlace, hfits, if_true]

/-- A refused encryption changes nothing. -/
theorem encrypt_error {s : CipherState} {ad plaintext area : Bytes} {e : Error}
    (h : (s.encrypt ad plaintext area).result = .error e) :
    s.encrypt ad plaintext area = ⟨s, area, .error e⟩ := by
  rcases s with ⟨kind, _ | key, nonce⟩
  · simp only [encrypt, copy] at h ⊢
    split at h
    · rw [if_pos ‹_›]
      exact congrArg _ h
    · cases h
  · simp only [encrypt] at h ⊢
    split at h
    · rw [if_pos ‹_›]
      exact congrArg _ h
    · rw [if_neg ‹_›]
      split at h
      · rw [if_pos ‹_›]
        exact congrArg _ h
      · have hfits : plaintext.length + Aead.tagLength ≤ (area.overwrite 0 plaintext).length := by
          rw [Bytes.length_overwrite_zero (by omega)]
          omega
        simp only [Aead.sealInPlace, hfits, if_true] at h
        cases h

/-- Encryption keeps the size of the area. -/
theorem length_area_encrypt (s : CipherState) (ad plaintext area : Bytes) :
    (s.encrypt ad plaintext area).area.length = area.length := by
  rcases s with ⟨kind, _ | key, nonce⟩
  · simp only [encrypt, copy]
    split
    · rfl
    · exact Bytes.length_overwrite_zero (by omega)
  · simp only [encrypt]
    split
    · rfl
    · split
      · rfl
      · have hloaded : (area.overwrite 0 plaintext).length = area.length :=
          Bytes.length_overwrite_zero (by omega)
        have hfits : plaintext.length + Aead.tagLength ≤ (area.overwrite 0 plaintext).length := by
          omega
        have htake : (area.overwrite 0 plaintext).take plaintext.length = plaintext :=
          Bytes.take_overwrite_zero _ _
        simp only [Aead.sealInPlace, hfits, if_true, htake]
        rw [Bytes.length_overwrite_zero, hloaded]
        exact Nat.le_trans (Aead.length_sealed_le ..) hfits

/-- The state after encryption. -/
theorem state_encrypt_ok {s : CipherState} {ad plaintext area : Bytes} {n : Nat}
    (h : (s.encrypt ad plaintext area).result = .ok n) :
    (s.encrypt ad plaintext area).state = s.passed := by
  rcases s with ⟨kind, _ | key, nonce⟩
  · simp only [encrypt, copy] at h ⊢
    split <;> rfl
  · simp only [encrypt] at h ⊢
    split at h
    · cases h
    · rw [if_neg ‹_›]
      split at h
      · cases h
      · rw [if_neg ‹_›]
        cases hseal : Aead.sealInPlace kind key nonce ad (area.overwrite 0 plaintext)
            plaintext.length with
        | ok done => rfl
        | error e =>
          rw [hseal] at h
          cases h

/-- Encryption into an area with room succeeds: the ciphertext stands at the front of the area, and
what lies behind it is untouched. -/
theorem encrypt_ok {s : CipherState} (hs : s.WellKeyed) (hn : ¬ s.Exhausted)
    {ad plaintext area : Bytes} (hroom : plaintext.length + s.overhead ≤ area.length) :
    s.encrypt ad plaintext area =
      ⟨s.passed, s.ciphertext ad plaintext ++ area.drop (plaintext.length + s.overhead),
        .ok (plaintext.length + s.overhead)⟩ := by
  rcases s with ⟨kind, _ | key, nonce⟩
  · have hlt : ¬ area.length < plaintext.length := by
      simp only [overhead, hasKey, Option.isSome_none, Bool.false_eq_true, if_false] at hroom
      omega
    simp only [encrypt, copy, hlt, if_false, Bytes.overwrite_zero]
    rfl
  · have hcount : nonce ≠ reservedNonce := fun h => hn ⟨rfl, h⟩
    have hlt : ¬ area.length < plaintext.length + Aead.tagLength := Nat.not_lt.mpr hroom
    have hsealed := Aead.length_sealed kind (hs key rfl) nonce ad plaintext
    have hloaded : (area.overwrite 0 plaintext).length = area.length :=
      Bytes.length_overwrite_zero (by omega)
    have hfits : plaintext.length + Aead.tagLength ≤ (area.overwrite 0 plaintext).length := by
      omega
    have htake : (area.overwrite 0 plaintext).take plaintext.length = plaintext :=
      Bytes.take_overwrite_zero _ _
    have harea : (area.overwrite 0 plaintext).overwrite 0
          (Aead.sealed kind key nonce ad plaintext) =
        Aead.sealed kind key nonce ad plaintext ++
          area.drop (plaintext.length + Aead.tagLength) := by
      rw [Bytes.overwrite_zero, hsealed, Bytes.drop_overwrite_zero (by omega)]
    simp only [encrypt, hcount, hlt, if_false, Aead.sealInPlace, hfits, if_true, htake, harea]
    rfl

/-! ## Decryption -/

/-- What decryption puts to the front of an area: the plaintext, or zeros in its place. -/
def front (s : CipherState) (ad message : Bytes) : Bytes :=
  let size := message.length - s.overhead
  match s.plaintext? ad message with
  | some plaintext => (message.overwrite 0 plaintext).take size
  | none => Bytes.zeros size

/-- The area in which a message is decrypted: the message is loaded into it where it fits. -/
def loaded (message area : Bytes) : Bytes :=
  if message.length ≤ area.length then area.overwrite 0 message else area

theorem length_plaintext?_le {s : CipherState} {ad message plaintext : Bytes}
    (h : s.plaintext? ad message = some plaintext) :
    plaintext.length ≤ message.length - s.overhead := by
  rcases s with ⟨kind, _ | key, nonce⟩
  · obtain rfl : message = plaintext := Option.some.inj h
    exact Nat.le_refl _
  · exact Aead.length_opened_le h

@[simp] theorem length_front (s : CipherState) (ad message : Bytes) :
    (s.front ad message).length = message.length - s.overhead := by
  unfold front
  cases h : s.plaintext? ad message with
  | none => exact Bytes.length_zeros _
  | some plaintext =>
    have hle := length_plaintext?_le h
    show ((message.overwrite 0 plaintext).take _).length = _
    rw [List.length_take, Bytes.length_overwrite_zero (by omega)]
    omega

/-- With a key of full length, what is put to the front is the plaintext alone. -/
theorem front_eq {s : CipherState} (hs : s.WellKeyed) {ad message plaintext : Bytes}
    (h : s.plaintext? ad message = some plaintext) : s.front ad message = plaintext := by
  have hlen : plaintext.length = message.length - s.overhead := by
    rcases s with ⟨kind, _ | key, nonce⟩
    · obtain rfl : message = plaintext := Option.some.inj h
      rfl
    · exact Aead.length_opened (hs key rfl) h
  unfold front
  rw [h, ← hlen]
  exact Bytes.take_overwrite_zero _ _

@[simp] theorem length_loaded (message area : Bytes) :
    (loaded message area).length = area.length := by
  unfold loaded
  split
  · exact Bytes.length_overwrite_zero ‹_›
  · rfl

/-- All that decryption does. Whether it is done in the area or in a copy shows behind the plaintext
only. -/
theorem decrypt_eq (s : CipherState) (ad message area : Bytes) :
    s.decrypt ad message area =
      if s.Exhausted then ⟨s, area, .error .nonceExhausted⟩
      else if message.length < s.overhead then ⟨s, area, .error .badMessage⟩
      else if area.length < message.length - s.overhead then ⟨s, area, .error .bufferTooSmall⟩
      else
        let filled := (loaded message area).overwrite 0 (s.front ad message)
        if (s.plaintext? ad message).isSome then
          ⟨s.passed, filled, .ok (message.length - s.overhead)⟩
        else ⟨s, filled, .error .cryptoFailed⟩ := by
  rcases s with ⟨kind, _ | key, nonce⟩
  · simp only [decrypt, copy, Exhausted, hasKey, overhead, plaintext?, front, loaded,
      Option.isSome_none, Bool.false_eq_true, false_and, if_false, Nat.not_lt_zero, Nat.sub_zero,
      Option.isSome_some, if_true]
    by_cases hroom : area.length < message.length
    · rw [if_pos hroom, if_pos hroom]
    · have hin : message.length ≤ area.length := Nat.not_lt.mp hroom
      rw [if_neg hroom, if_neg hroom, if_pos hin,
        Bytes.overwrite_front (Nat.le_refl _) (Nat.le_refl _)]
      have htwice : (area.overwrite 0 message).overwrite 0 message = area.overwrite 0 message := by
        rw [Bytes.overwrite_zero, Bytes.drop_overwrite_zero (Nat.le_refl _),
          ← Bytes.overwrite_zero]
      rw [htwice]
      rfl
  · simp only [decrypt, Exhausted, hasKey, overhead, Option.isSome_some, true_and, if_true]
    by_cases hn : nonce = reservedNonce
    · rw [if_pos hn, if_pos hn]
    rw [if_neg hn, if_neg hn]
    by_cases hlong : message.length < Aead.tagLength
    · rw [if_pos hlong, if_pos hlong]
    rw [if_neg hlong, if_neg hlong]
    by_cases hroom : area.length < message.length - Aead.tagLength
    · rw [if_pos hroom, if_pos hroom]
    rw [if_neg hroom, if_neg hroom]
    have hsize : Aead.tagLength ≤ message.length := Nat.not_lt.mp hlong
    have hplain : plaintext? ⟨kind, some key, nonce⟩ ad message =
      Aead.opened? kind key nonce ad message := rfl
    simp only [front, loaded, hplain]
    simp only [openInto, Aead.openInPlace]
    by_cases hin : message.length ≤ area.length
    · have hfits : message.length ≤ (area.overwrite 0 message).length := by
        rw [Bytes.length_overwrite_zero hin]
        exact hin
      have htake : (area.overwrite 0 message).take message.length = message :=
        Bytes.take_overwrite_zero _ _
      rw [if_pos hin, if_pos hin, if_pos ⟨hsize, hfits⟩, htake]
      cases hopen : Aead.opened? kind key nonce ad message with
      | none => rfl
      | some plaintext =>
        have hle := Aead.length_opened_le hopen
        have hsmall : message.length - Aead.tagLength ≤ message.length := Nat.sub_le _ _
        have hfront := @Bytes.overwrite_front area message plaintext _ hsmall hle
        exact congrArg (fun a => Outcome.mk _ a _) hfront.symm
    · rw [if_neg hin, if_neg hin, if_pos ⟨hsize, Nat.le_refl _⟩, List.take_length]
      cases Aead.opened? kind key nonce ad message <;> rfl

/-- What decryption answers depends on counter, lengths and whether the message authenticates. -/
theorem result_decrypt (s : CipherState) (ad message area : Bytes) :
    (s.decrypt ad message area).result =
      if s.Exhausted then .error .nonceExhausted
      else if message.length < s.overhead then .error .badMessage
      else if area.length < message.length - s.overhead then .error .bufferTooSmall
      else if (s.plaintext? ad message).isSome then .ok (message.length - s.overhead)
      else .error .cryptoFailed := by
  rw [decrypt_eq]
  split
  · rfl
  split
  · rfl
  split
  · rfl
  · dsimp only
    split <;> rfl

/-- A state decrypts without change of key; its counter moves only when the message goes through. -/
theorem state_decrypt (s : CipherState) (ad message area : Bytes) :
    (s.decrypt ad message area).state =
      if (s.decrypt ad message area).result.isOk then s.passed else s := by
  rw [decrypt_eq]
  split
  · rfl
  split
  · rfl
  split
  · rfl
  · dsimp only
    split <;> rfl

theorem state_decrypt_ok {s : CipherState} {ad message area : Bytes} {n : Nat}
    (h : (s.decrypt ad message area).result = .ok n) :
    (s.decrypt ad message area).state = s.passed := by
  rw [state_decrypt, h]
  rfl

/-- Decryption keeps the size of the area. -/
theorem length_area_decrypt (s : CipherState) (ad message area : Bytes) :
    (s.decrypt ad message area).area.length = area.length := by
  rw [decrypt_eq]
  split
  · rfl
  split
  · rfl
  split
  · rfl
  · have hfits : (s.front ad message).length ≤ (loaded message area).length := by
      rw [length_front, length_loaded]
      omega
    have hfilled := Bytes.length_overwrite_zero hfits
    rw [length_loaded] at hfilled
    dsimp only
    split <;> exact hfilled

/-- The plaintext stands at the front of the area, whether the work was done there or in a copy. -/
theorem take_area_decrypt {s : CipherState} (hs : s.WellKeyed) {ad message area plaintext : Bytes}
    {n : Nat} (hp : s.plaintext? ad message = some plaintext)
    (h : (s.decrypt ad message area).result = .ok n) :
    (s.decrypt ad message area).area.take n = plaintext := by
  rw [decrypt_eq] at h ⊢
  split at h
  · cases h
  rw [if_neg ‹_›]
  split at h
  · cases h
  rw [if_neg ‹_›]
  split at h
  · cases h
  rw [if_neg ‹_›]
  simp only [hp, Option.isSome_some, if_true] at h ⊢
  cases h
  rw [← front_eq hs hp, ← length_front s ad message, Bytes.take_overwrite_zero]

/-- Decryption by a state of equal contents, into an area with room for the plaintext, gives the
plaintext back. -/
theorem decrypt_ciphertext {s : CipherState} (hs : s.WellKeyed) (hn : ¬ s.Exhausted)
    {ad plaintext area : Bytes} (hroom : plaintext.length ≤ area.length) :
    (s.decrypt ad (s.ciphertext ad plaintext) area).result = .ok plaintext.length ∧
      (s.decrypt ad (s.ciphertext ad plaintext) area).state = s.passed ∧
      (s.decrypt ad (s.ciphertext ad plaintext) area).area.take plaintext.length = plaintext := by
  have hp := plaintext_ciphertext hs ad plaintext
  have hlen := length_ciphertext hs ad plaintext
  have hres : (s.decrypt ad (s.ciphertext ad plaintext) area).result = .ok plaintext.length := by
    rw [result_decrypt, if_neg hn, hlen, if_neg (by omega), if_neg (by omega), hp,
      Option.isSome_some, if_pos rfl, Nat.add_sub_cancel]
  exact ⟨hres, state_decrypt_ok hres, take_area_decrypt hs hp hres⟩

end NoiseChannel.CipherState
