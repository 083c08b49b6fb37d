import Mathlib.Algebra.Group.Nat.Defs
import NoiseChannel.Proofs.Keystream

/-!
# Sealing and opening in place

`Aead.sealInPlace` and `Aead.openInPlace` work in a buffer that is lent to them, on as many bytes at
its front as they are told. They are inverse to each other on whole buffers: what has been sealed
opens again (`openInPlace_sealed`), and a buffer opens exactly if sealing what comes out of it brings
it back (`openInPlace_eq_ok_iff`). The length that they are told may be any machine word; calculating
with words, and with a sum that may wrap around, comes to the same (`sealWord_eq`, `openWord_eq`).
-/

namespace NoiseChannel.Aead

/-! ## Sealing -/

section InPlace

variable {kind : CipherKind} {key : Bytes} {counter : UInt64} {ad buffer : Bytes} {n : Nat}

/-- A buffer is sealed exactly if there is room for the tag. -/
theorem sealInPlace_ok (hroom : n + tagLength ≤ buffer.length) :
    sealInPlace kind key counter ad buffer n =
      .ok (n + tagLength, buffer.overwrite 0 (sealed kind key counter ad (buffer.take n))) :=
  if_pos hroom

theorem sealInPlace_error (hroom : ¬ n + tagLength ≤ buffer.length) :
    sealInPlace kind key counter ad buffer n = .error .bufferTooSmall :=
  if_neg hroom

theorem sealInPlace_eq_error_iff :
    sealInPlace kind key counter ad buffer n = .error .bufferTooSmall ↔
      buffer.length < n + tagLength := by
  by_cases hroom : n + tagLength ≤ buffer.length
  · rw [sealInPlace_ok hroom]
    simp only [reduceCtorEq, false_iff]
    omega
  · rw [sealInPlace_error hroom]
    simp only [true_iff]
    omega

/-- The bytes that are sealed are as many as are asked for. -/
theorem length_sealed_take (hkey : key.length = keyLength) (hroom : n + tagLength ≤ buffer.length) :
    (sealed kind key counter ad (buffer.take n)).length = n + tagLength := by
  rw [length_sealed kind hkey, List.length_take_of_le (by omega)]

/-! ## Opening -/

theorem openInPlace_error (hsize : ¬ (tagLength ≤ n ∧ n ≤ buffer.length)) :
    openInPlace kind key counter ad buffer n = .error .badMessage :=
  if_neg hsize

theorem openInPlace_eq_of_opened {plaintext : Bytes} (hsize : tagLength ≤ n ∧ n ≤ buffer.length)
    (hopened : opened? kind key counter ad (buffer.take n) = some plaintext) :
    openInPlace kind key counter ad buffer n =
      .ok (n - tagLength, buffer.overwrite 0 plaintext) := by
  unfold openInPlace
  rw [if_pos hsize, hopened]

theorem openInPlace_forged (hsize : tagLength ≤ n ∧ n ≤ buffer.length)
    (hopened : opened? kind key counter ad (buffer.take n) = none) :
    openInPlace kind key counter ad buffer n = .error .cryptoFailed := by
  unfold openInPlace
  rw [if_pos hsize, hopened]

theorem openInPlace_eq_error_iff :
    openInPlace kind key counter ad buffer n = .error .badMessage ↔
      n < tagLength ∨ buffer.length < n := by
  by_cases hsize : tagLength ≤ n ∧ n ≤ buffer.length
  · cases hopened : opened? kind key counter ad (buffer.take n) with
    | some plaintext =>
      rw [openInPlace_eq_of_opened hsize hopened]
      simp only [reduceCtorEq, false_iff]
      omega
    | none =>
      rw [openInPlace_forged hsize hopened]
      simp only [Except.error.injEq, reduceCtorEq, false_iff]
      omega
  · rw [openInPlace_error hsize]
    simp only [true_iff]
    omega

/-- What has been sealed opens to the bytes that were there before. The tag stays where it is. -/
theorem openInPlace_sealed (hkey : key.length = keyLength)
    (hroom : n + tagLength ≤ buffer.length) :
    let out := buffer.overwrite 0 (sealed kind key counter ad (buffer.take n))
    openInPlace kind key counter ad out (n + tagLength) =
      .ok (n, out.overwrite 0 (buffer.take n)) := by
  intro out
  have hlen : (sealed kind key counter ad (buffer.take n)).length = n + tagLength :=
    length_sealed_take hkey hroom
  have hfront : out.take (n + tagLength) = sealed kind key counter ad (buffer.take n) := by
    rw [← hlen]
    exact Bytes.take_overwrite_zero _ _
  have hsize : tagLength ≤ n + tagLength ∧ n + tagLength ≤ out.length := by
    have hout : out.length = buffer.length := Bytes.length_overwrite_zero (by omega)
    omega
  have hopened : opened? kind key counter ad (out.take (n + tagLength)) =
      some (buffer.take n) := by
    rw [hfront]
    exact opened_sealed kind hkey counter ad (buffer.take n)
  rw [openInPlace_eq_of_opened hsize hopened, Nat.add_sub_cancel]

/-- Whatever opens is what sealing makes of the bytes that have come out. -/
theorem sealInPlace_of_openInPlace (hkey : key.length = keyLength) {m : Nat} {out : Bytes}
    (h : openInPlace kind key counter ad buffer n = .ok (m, out)) :
    sealInPlace kind key counter ad out m = .ok (n, buffer) ∧ out.drop m = buffer.drop m := by
  by_cases hsize : tagLength ≤ n ∧ n ≤ buffer.length
  · cases hopened : opened? kind key counter ad (buffer.take n) with
    | none =>
      rw [openInPlace_forged hsize hopened] at h
      cases h
    | some plaintext =>
      rw [openInPlace_eq_of_opened hsize hopened] at h
      cases h
      have htake : (buffer.take n).length = n := List.length_take_of_le hsize.2
      have hlen : plaintext.length = n - tagLength := by
        rw [length_opened hkey hopened, htake]
      have hout : (buffer.overwrite 0 plaintext).length = buffer.length :=
        Bytes.length_overwrite_zero (by omega)
      have hback : (buffer.overwrite 0 plaintext).take (n - tagLength) = plaintext := by
        rw [← hlen]
        exact Bytes.take_overwrite_zero _ _
      -- the sealed bytes cover the plaintext and the tag, behind which nothing has changed
      have hwhole : (buffer.overwrite 0 plaintext).overwrite 0 (buffer.take n) = buffer := by
        rw [Bytes.overwrite_zero, htake, Bytes.drop_overwrite_zero (by omega),
          List.take_append_drop]
      constructor
      · rw [sealInPlace_ok (by omega), hback, sealed_of_opened hkey hopened, hwhole,
          Nat.sub_add_cancel hsize.1]
      · exact Bytes.drop_overwrite_zero (by omega)
  · rw [openInPlace_error hsize] at h
    cases h

/-- Whatever sealing makes of the first bytes of a buffer opens to that buffer, if nothing but these
bytes is different in it. -/
theorem openInPlace_of_sealInPlace (hkey : key.length = keyLength) {m : Nat} {out : Bytes}
    (h : sealInPlace kind key counter ad out m = .ok (n, buffer))
    (hrest : out.drop m = buffer.drop m) :
    openInPlace kind key counter ad buffer n = .ok (m, out) := by
  by_cases hroom : m + tagLength ≤ out.length
  · rw [sealInPlace_ok hroom] at h
    simp only [Except.ok.injEq, Prod.mk.injEq] at h
    obtain ⟨hn, hbuffer⟩ := h
    have hopen := @openInPlace_sealed kind key counter ad out m hkey hroom
    rw [hbuffer, hn] at hopen
    have htake : (out.take m).length = m := List.length_take_of_le (by omega)
    have hout : buffer.overwrite 0 (out.take m) = out := by
      rw [Bytes.overwrite_zero, htake, ← hrest, List.take_append_drop]
    rw [hopen, hout]
  · rw [sealInPlace_error hroom] at h
    cases h

/-- A buffer opens exactly if sealing what has come out of it brings the whole of it back. -/
theorem openInPlace_eq_ok_iff (hkey : key.length = keyLength) {m : Nat} {out : Bytes} :
    openInPlace kind key counter ad buffer n = .ok (m, out) ↔
      sealInPlace kind key counter ad out m = .ok (n, buffer) ∧ out.drop m = buffer.drop m := by
  constructor
  · exact sealInPlace_of_openInPlace hkey
  · rintro ⟨hseal, hrest⟩
    exact openInPlace_of_sealInPlace hkey hseal hrest

end InPlace

/-! ## Lengths as machine words -/

/-- The sum of two words, unless it wraps around. -/
def sum? (a b : UInt64) : Option UInt64 := if a + b < a then none else some (a + b)

/-- Seals the first `length` bytes of a buffer, the length being a word. -/
def sealWord (kind : CipherKind) (key : Bytes) (counter : UInt64) (ad buffer : Bytes)
    (length : UInt64) : Except Error (UInt64 × Bytes) :=
  match sum? length 16 with
  | none => .error .bufferTooSmall
  | some total =>
    if buffer.length < total.toNat then .error .bufferTooSmall
    else
      .ok (total, buffer.overwrite 0 (sealed kind key counter ad (buffer.take length.toNat)))

/-- Opens the message in the first `length` bytes of a buffer, the length being a word. -/
def openWord (kind : CipherKind) (key : Bytes) (counter : UInt64) (ad buffer : Bytes)
    (length : UInt64) : Except Error (UInt64 × Bytes) :=
  if length < 16 ∨ buffer.length < length.toNat then .error .badMessage
  else
    match opened? kind key counter ad (buffer.take length.toNat) with
    | some plaintext => .ok (length - 16, buffer.overwrite 0 plaintext)
    | none => .error .cryptoFailed

/-- The same outcome with its length read off the word. -/
def fromWord (outcome : Except Error (UInt64 × Bytes)) : Except Error (Nat × Bytes) :=
  outcome.map fun (length, buffer) => (length.toNat, buffer)

/-- A sum wraps around exactly if it takes more than 64 bits. -/
theorem sum?_eq_none_iff (a b : UInt64) : sum? a b = none ↔ 2 ^ 64 ≤ a.toNat + b.toNat := by
  have ha := a.toNat_lt
  have hb := b.toNat_lt
  unfold sum?
  simp only [UInt64.lt_iff_toNat_lt, UInt64.toNat_add]
  split
  · simp only [true_iff]
    omega
  · simp only [reduceCtorEq, false_iff]
    omega

theorem toNat_of_sum? {a b total : UInt64} (h : sum? a b = some total) :
    total.toNat = a.toNat + b.toNat := by
  have hfits : ¬ 2 ^ 64 ≤ a.toNat + b.toNat := by
    rw [← sum?_eq_none_iff, h]
    simp
  unfold sum? at h
  split at h
  · cases h
  · cases h
    rw [UInt64.toNat_add]
    omega

section Words

variable (kind : CipherKind) (key : Bytes) (counter : UInt64) (ad : Bytes) {buffer : Bytes}

/-- No buffer has so many bytes that a sum that wraps around could be the length of its front. -/
theorem sealWord_eq (hbuffer : buffer.length < 2 ^ 64) (length : UInt64) :
    fromWord (sealWord kind key counter ad buffer length) =
      sealInPlace kind key counter ad buffer length.toNat := by
  have htag : (16 : UInt64).toNat = tagLength := rfl
  unfold sealWord
  cases hsum : sum? length 16 with
  | none =>
    have hwraps := (sum?_eq_none_iff length 16).mp hsum
    rw [sealInPlace_error (by omega)]
    rfl
  | some total =>
    have htotal := toNat_of_sum? hsum
    by_cases hroom : length.toNat + tagLength ≤ buffer.length
    · rw [sealInPlace_ok hroom, ← htag, ← htotal]
      simp only [if_neg (show ¬ buffer.length < total.toNat by omega)]
      rfl
    · rw [sealInPlace_error hroom]
      simp only [if_pos (show buffer.length < total.toNat by omega)]
      rfl

theorem openWord_eq (length : UInt64) :
    fromWord (openWord kind key counter ad buffer length) =
      openInPlace kind key counter ad buffer length.toNat := by
  have htag : (16 : UInt64).toNat = tagLength := rfl
  have hshort : length < 16 ↔ length.toNat < tagLength := by
    rw [UInt64.lt_iff_toNat_lt, htag]
  unfold openWord
  by_cases hsize : tagLength ≤ length.toNat ∧ length.toNat ≤ buffer.length
  · have hsmaller : (length - 16).toNat = length.toNat - tagLength := by
      rw [UInt64.toNat_sub_of_le]
      · rw [htag]
      · rw [UInt64.le_iff_toNat_le, htag]
        exact hsize.1
    rw [if_neg (by rw [hshort]; omega)]
    cases hopened : opened? kind key counter ad (buffer.take length.toNat) with
    | some plaintext =>
      rw [openInPlace_eq_of_opened hsize hopened, ← hsmaller]
      rfl
    | none =>
      rw [openInPlace_forged hsize hopened]
      rfl
  · rw [if_pos (by rw [hshort]; omega), openInPlace_error hsize]
    rfl

end Words

/-- Sealing and opening in place, for both ciphers, with any key, counter and associated data, in any
buffer and for any length. Sealing is refused exactly if the length with the tag does not fit into a
word or into the buffer; otherwise it gives that length and leaves what lies behind it alone, and
opening the result gives the length and the bytes of the plaintext back. Opening finds a message
malformed exactly if it is shorter than a tag or longer than the buffer. It gives `m` bytes and a
buffer exactly if sealing these `m` bytes brings the ciphertext and the tag, and the whole buffer,
back. All this is so if lengths are calculated as machine words. -/
theorem inverse_in_place (kind : CipherKind) {key : Bytes} (hkey : key.length = keyLength)
    (counter : UInt64) (ad : Bytes) {buffer : Bytes} (hbuffer : buffer.length < 2 ^ 64)
    (length : UInt64) :
    let n := length.toNat
    fromWord (sealWord kind key counter ad buffer length) =
        sealInPlace kind key counter ad buffer n ∧
      fromWord (openWord kind key counter ad buffer length) =
        openInPlace kind key counter ad buffer n ∧
      (sealInPlace kind key counter ad buffer n = .error .bufferTooSmall ↔
        2 ^ 64 ≤ n + tagLength ∨ buffer.length < n + tagLength) ∧
      (¬ (2 ^ 64 ≤ n + tagLength ∨ buffer.length < n + tagLength) →
        ∃ out back, sealInPlace kind key counter ad buffer n = .ok (n + tagLength, out) ∧
          out.length = buffer.length ∧
          out.drop (n + tagLength) = buffer.drop (n + tagLength) ∧
          openInPlace kind key counter ad out (n + tagLength) = .ok (n, back) ∧
          back.take n = buffer.take n ∧ back.drop n = out.drop n) ∧
      (openInPlace kind key counter ad buffer n = .error .badMessage ↔
        n < tagLength ∨ buffer.length < n) ∧
      ∀ m out, openInPlace kind key counter ad buffer n = .ok (m, out) ↔
        sealInPlace kind key counter ad out m = .ok (n, buffer) ∧ out.drop m = buffer.drop m := by
  intro n
  refine ⟨sealWord_eq kind key counter ad hbuffer length, openWord_eq kind key counter ad length,
    ?_, ?_, openInPlace_eq_error_iff, fun m out => openInPlace_eq_ok_iff hkey⟩
  · rw [sealInPlace_eq_error_iff]
    omega
  · intro hfits
    have hroom : n + tagLength ≤ buffer.length := by omega
    have hlen : (sealed kind key counter ad (buffer.take n)).length = n + tagLength :=
      length_sealed_take hkey hroom
    have htake : (buffer.take n).length = n := List.length_take_of_le (by omega)
    have hback := Bytes.take_overwrite_zero
      (buffer.overwrite 0 (sealed kind key counter ad (buffer.take n))) (buffer.take n)
    rw [htake] at hback
    refine ⟨_, _, sealInPlace_ok hroom, ?_, ?_, openInPlace_sealed hkey hroom, hback, ?_⟩
    · exact Bytes.length_overwrite_zero (by omega)
    · exact Bytes.drop_overwrite_zero (by omega)
    · exact Bytes.drop_overwrite_zero (by omega)

/-- Three bytes in a buffer of twenty are sealed, which leaves one byte behind the tag alone, and
opened again. With the longest length that there is, the sum with the tag wraps around. -/
theorem inverse_in_place_three :
    let key := Bytes.zeros 32
    let buffer : Bytes := [1, 2, 3] ++ List.replicate 17 9
    (∃ out back, sealInPlace .aesGcm key 5 [7] buffer 3 = .ok (19, out) ∧ out.drop 19 = [9] ∧
      openInPlace .aesGcm key 5 [7] out 19 = .ok (3, back) ∧ back.take 3 = [1, 2, 3]) ∧
      sealInPlace .aesGcm key 5 [7] buffer 0xffffffffffffffff = .error .bufferTooSmall := by
  intro key buffer
  have hkey : key.length = keyLength := rfl
  have hbuffer : buffer.length < 2 ^ 64 := by decide
  obtain ⟨-, -, -, hseals, -⟩ := inverse_in_place .aesGcm hkey 5 [7] hbuffer 3
  obtain ⟨-, -, hrefused, -⟩ := inverse_in_place .aesGcm hkey 5 [7] hbuffer 0xffffffffffffffff
  obtain ⟨out, back, hseal, -, hrest, hopen, hback, -⟩ := hseals (by decide)
  exact ⟨⟨out, back, hseal, hrest, hopen, hback⟩, hrefused.mpr (Or.inl (by decide))⟩

end NoiseChannel.Aead
