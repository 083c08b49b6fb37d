import NoiseChannel.Proofs.Cipher

/-!
# What decryption leaves in an area

Decryption works in the area that its caller lends if the whole message fits into it, and else in a
copy. `decrypt_eq` says what the area holds afterwards in either case. Nothing that a caller is told
depends on which it was (`written_decrypt`), and a forged message leaves zeros in the place of its
plaintext (`decrypt_forged`).
-/

namespace NoiseChannel.CipherState

variable {s : CipherState} {ad message area : Bytes}

/-- What decryption gives depends on the area by its size only, and only where it is too small. -/
theorem written_decrypt (s : CipherState) (ad message area : Bytes) :
    (s.decrypt ad message area).written =
      if s.Exhausted then .error .nonceExhausted
      else if message.length < s.overhead then .error .badMessage
      else if area.length < message.length - s.overhead then .error .bufferTooSmall
      else if (s.plaintext? ad message).isSome then .ok (s.front ad message)
      else .error .cryptoFailed := by
  have htake : ((loaded message area).overwrite 0 (s.front ad message)).take
      (message.length - s.overhead) = s.front ad message := by
    have hfront := Bytes.take_overwrite_zero (loaded message area) (s.front ad message)
    rw [length_front] at hfront
    exact hfront
  unfold Outcome.written
  rw [decrypt_eq]
  split
  · rfl
  split
  · rfl
  split
  · rfl
  · dsimp only
    split
    · exact congrArg Except.ok htake
    · rfl

/-- Only a keyed cipher finds a message forged, and only if the area had room for its plaintext. What
it leaves in the area are zeros, and behind them no byte that was not there before or in the message
as it came. -/
theorem decrypt_forged (h : (s.decrypt ad message area).result = .error .cryptoFailed) :
    s.overhead = Aead.tagLength ∧ (s.decrypt ad message area).area =
      (loaded message area).overwrite 0 (Bytes.zeros (message.length - Aead.tagLength)) := by
  rw [decrypt_eq] at h ⊢
  split at h
  · cases h
  rw [if_neg ‹_›]
  split at h
  · cases h
  rw [if_neg ‹_›]
  split at h
  · cases h
  rw [if_neg ‹_›]
  cases hplain : s.plaintext? ad message with
  | some plaintext =>
    rw [hplain] at h
    cases h
  | none =>
    have hkey : s.overhead = Aead.tagLength := by
      rcases s with ⟨kind, _ | key, nonce⟩
      · cases hplain
      · rfl
    have hfront : s.front ad message = Bytes.zeros (message.length - Aead.tagLength) := by
      unfold front
      rw [hplain, hkey]
    exact ⟨hkey, congrArg ((loaded message area).overwrite 0) hfront⟩

/-- Any other refusal comes before the area is touched. -/
theorem area_decrypt_refused {e : Error} (h : (s.decrypt ad message area).result = .error e)
    (he : e ≠ .cryptoFailed) : (s.decrypt ad message area).area = area := by
  rw [decrypt_eq] at h ⊢
  split at h
  · rw [if_pos ‹_›]
  rw [if_neg ‹_›]
  split at h
  · rw [if_pos ‹_›]
  rw [if_neg ‹_›]
  split at h
  · rw [if_pos ‹_›]
  · dsimp only at h
    split at h
    · cases h
    · exact absurd (Except.error.inj h).symm he

theorem state_decrypt_error {e : Error} (h : (s.decrypt ad message area).result = .error e) :
    (s.decrypt ad message area).state = s := by
  rw [state_decrypt, h]
  rfl

/-- Into any two areas that can hold the plaintext, whatever they contain and whether or not there is
room for the tag as well, a message is decrypted with the same answer, the same bytes and the same
state afterwards. A refusal keeps key and counter. If the message was forged, the place of its
plaintext is zero, and behind it the area has the tag as it came, or what was there before; after
every other refusal the area is as it was. -/
theorem decrypted_alike_in_any_area (s : CipherState) (ad message : Bytes) :
    (∀ area other : Bytes, message.length - s.overhead ≤ area.length →
      message.length - s.overhead ≤ other.length →
      (s.decrypt ad message area).result = (s.decrypt ad message other).result ∧
      (s.decrypt ad message area).written = (s.decrypt ad message other).written ∧
      (s.decrypt ad message area).state = (s.decrypt ad message other).state) ∧
    ∀ (area : Bytes) (e : Error), (s.decrypt ad message area).result = .error e →
      let size := message.length - Aead.tagLength
      let left := (s.decrypt ad message area).area
      (s.decrypt ad message area).state = s ∧
      (e = .cryptoFailed → left.take size = Bytes.zeros size ∧
        left.drop size = (loaded message area).drop size) ∧
      (e ≠ .cryptoFailed → left = area) := by
  constructor
  · intro area other harea hother
    have hresult : (s.decrypt ad message area).result = (s.decrypt ad message other).result := by
      rw [result_decrypt, result_decrypt, if_neg (Nat.not_lt.mpr harea),
        if_neg (Nat.not_lt.mpr hother)]
    have hwritten :
        (s.decrypt ad message area).written = (s.decrypt ad message other).written := by
      rw [written_decrypt, written_decrypt, if_neg (Nat.not_lt.mpr harea),
        if_neg (Nat.not_lt.mpr hother)]
    refine ⟨hresult, hwritten, ?_⟩
    rw [state_decrypt, state_decrypt, hresult]
  · intro area e he size left
    refine ⟨state_decrypt_error he, ?_, area_decrypt_refused he⟩
    rintro rfl
    obtain ⟨-, harea⟩ := decrypt_forged he
    have hlen : (Bytes.zeros size).length = size := Bytes.length_zeros size
    have htake := Bytes.take_overwrite_zero (loaded message area) (Bytes.zeros size)
    rw [hlen] at htake
    have hleft : left = (loaded message area).overwrite 0 (Bytes.zeros size) := harea
    rw [hleft]
    exact ⟨htake, Bytes.drop_overwrite_zero (Nat.le_of_eq hlen)⟩

/-- A message of three bytes is decrypted into an area of three, and into a larger one of other
contents. With another first byte it is refused, and three zeros are left in the larger area. -/
theorem decrypted_alike_in_any_area_three :
    let s : CipherState := ⟨.chaChaPoly, some (Bytes.zeros 32), 0⟩
    let message := s.ciphertext [5] [1, 2, 3]
    let forged := 0 :: message.drop 1
    let area : Bytes := List.replicate 20 7
    (s.decrypt [5] message [9, 9, 9]).written = .ok [1, 2, 3] ∧
      (s.decrypt [5] message area).written = .ok [1, 2, 3] ∧
      (s.decrypt [5] forged area).result = .error .cryptoFailed ∧
      (s.decrypt [5] forged area).state = s ∧
      (s.decrypt [5] forged area).area.take 3 = [0, 0, 0] := by
  intro s message forged area
  have hplain : s.plaintext? [5] message = some [1, 2, 3] := by decide +kernel
  have hnone : s.plaintext? [5] forged = none := by decide +kernel
  have hcount : ¬ s.Exhausted := by decide
  have hsize : message.length = 19 ∧ forged.length = 19 := by decide +kernel
  have hroom : message.length - s.overhead ≤ ([9, 9, 9] : Bytes).length ∧
      message.length - s.overhead ≤ area.length := by decide +kernel
  have hmessage : (s.decrypt [5] message [9, 9, 9]).written = .ok [1, 2, 3] := by
    have hkey : s.WellKeyed := wellKeyed_setKey s rfl
    rw [written_decrypt, if_neg hcount, if_neg (by rw [hsize.1]; decide),
      if_neg (Nat.not_lt.mpr hroom.1), hplain, front_eq hkey hplain]
    rfl
  have hforged : (s.decrypt [5] forged area).result = .error .cryptoFailed := by
    rw [result_decrypt, if_neg hcount, hsize.2, if_neg (by decide), if_neg (by decide), hnone]
    rfl
  obtain ⟨-, hsame, -⟩ :=
    (decrypted_alike_in_any_area s [5] message).1 [9, 9, 9] area hroom.1 hroom.2
  obtain ⟨hstate, hzero, -⟩ := (decrypted_alike_in_any_area s [5] forged).2 area _ hforged
  have hthree := (hzero rfl).1
  rw [hsize.2] at hthree
  exact ⟨hmessage, hsame.symm.trans hmessage, hforged, hstate, hthree⟩

end NoiseChannel.CipherState
