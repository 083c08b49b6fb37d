import NoiseChannel.Proofs.Eager

/-!
# What a message conveys

A message is a row of fields: ephemeral keys in the clear, static keys encrypted, and the payload
encrypted at the end. `Conveys` says where a row of fields takes a symmetric state. Whoever writes a
message (`Writing.conveys`) and whoever reads it (`Reading.conveys`) goes that way, each from its own
state; for a reader this rests on decryption being the inverse of encryption
(`decryptAndHash_ok`). What holds of every message is then shown once, by induction on its tokens.
-/

namespace NoiseChannel

/-! ## Decryption undone -/

theorem CipherState.ciphertext_of_plaintext? {s : CipherState} (hs : s.WellKeyed)
    {ad message plaintext : Bytes} (h : s.plaintext? ad message = some plaintext) :
    s.ciphertext ad plaintext = message := by
  rcases s with ⟨kind, _ | key, nonce⟩
  · exact (Option.some.inj h).symm
  · exact Aead.sealed_of_opened (hs key rfl) h

/-- What has been decrypted is the ciphertext of the plaintext in the state that decrypts it. -/
theorem SymmetricState.decryptAndHash_ok {s : SymmetricState} (hs : s.WellKeyed)
    {message area : Bytes} {n : Nat} (h : (s.decryptAndHash message area).result = .ok n) :
    ∃ plaintext : Bytes, plaintext.length = n ∧ s.ciphertext plaintext = message ∧
      ¬ s.cipher.Exhausted ∧ (s.decryptAndHash message area).state = s.passed message ∧
      (s.decryptAndHash message area).area.take n = plaintext := by
  have hroom : message.length - s.overhead ≤ area.length := by
    rw [result_decryptAndHash] at h
    split at h
    · cases h
    split at h
    · cases h
    split at h
    · cases h
    · exact Nat.not_lt.mp ‹_›
  rcases decryptAndHash_cases hs hroom with ⟨plaintext, heager, -, hstate, hres, harea⟩ | ⟨e, -, he⟩
  · obtain rfl : plaintext.length = n := Except.ok.inj (hres.symm.trans h)
    rw [eager_decryptAndHash] at heager
    split at heager
    · cases heager
    · rename_i hcount
      obtain ⟨opened, hopened, hpair⟩ := Option.map_eq_some_iff.mp heager
      obtain rfl : opened = plaintext := congrArg Prod.fst hpair
      exact ⟨opened, rfl, CipherState.ciphertext_of_plaintext? hs hopened, hcount, hstate, harea⟩
  · rw [h] at he
    cases he

namespace Handshake

/-! ## Tokens that go through -/

theorem Writing.appendEncrypted_inv {w w' : Writing} (hs : w.symmetric.WellKeyed) {plaintext : Bytes}
    (h : w.appendEncrypted plaintext = .ok w') :
    ∃ free, w' = { w with
      symmetric := w.symmetric.passed (w.symmetric.ciphertext plaintext)
      written := w.written ++ w.symmetric.ciphertext plaintext, free } := by
  cases hres : (w.symmetric.encryptAndHash plaintext w.free).result with
  | error e =>
    simp only [appendEncrypted, hres] at h
    cases h
  | ok n =>
    obtain ⟨-, hsent⟩ := SymmetricState.encryptAndHash_sent hs hres
    have hstate := SymmetricState.state_encryptAndHash_ok hres
    rw [hsent] at hstate
    simp only [appendEncrypted, hres, hsent, hstate] at h
    exact ⟨_, (Except.ok.inj h).symm⟩

/-- How a token that goes through takes a message that is being written further. -/
inductive Writing.Puts (p : Pattern) (role : Role) (psk : Option PresharedKey) (w : Writing) :
    Token → Writing → Prop where
  | ephemeral (pair : KeyPair) (free : Bytes) (entropy : Entropy) :
    Puts p role psk w .e
      { slots := { w.slots with localEphemeral := some pair }
        symmetric := mixPublic p w.symmetric .e pair.publicKey.bytes
        written := w.written ++ pair.publicKey.bytes, free, entropy }
  | static (pair : KeyPair) (free : Bytes) : w.slots.localStatic = some pair →
    Puts p role psk w .s
      { w with
        symmetric := w.symmetric.passed (w.symmetric.ciphertext pair.publicKey.bytes)
        written := w.written ++ w.symmetric.ciphertext pair.publicKey.bytes, free }
  | secret {t : Token} {s : SymmetricState} : t ≠ .e → t ≠ .s →
    mixSecret w.slots psk role w.symmetric t = .ok s →
    Puts p role psk w t { w with symmetric := s }

theorem Writing.token_puts {p : Pattern} {role : Role} {psk : Option PresharedKey} {w w' : Writing}
    {t : Token} (hs : w.symmetric.WellKeyed) (h : token p role psk w t = .ok w') :
    Puts p role psk w t w' := by
  rcases t.carries with rfl | rfl | ⟨hne, hns⟩
  · obtain ⟨pair, left, -, hmade⟩ := generateLocalEphemeral_eq w.slots w.entropy
    rw [token_e, hmade] at h
    dsimp only at h
    split at h
    · cases h
    · cases h
      exact .ephemeral pair _ _
  · rw [token_s, KeySlots.localStaticPublic] at h
    cases hown : w.slots.localStatic with
    | none =>
      rw [hown] at h
      cases h
    | some pair =>
      rw [hown] at h
      obtain ⟨free, rfl⟩ := appendEncrypted_inv hs h
      exact .static pair free hown
  · rw [token_secret hne hns] at h
    split at h
    · cases h
      exact .secret hne hns ‹_›
    · cases h

/-- How a token that goes through takes a message that is being read further. -/
inductive Reading.Takes (p : Pattern) (role : Role) (psk : Option PresharedKey) (r : Reading) :
    Token → Reading → Prop where
  | ephemeral (key : PublicKey) (rest : Bytes) : r.rest = key.bytes ++ rest →
    Takes p role psk r .e
      { slots := r.slots.setRemoteEphemeral key
        symmetric := mixPublic p r.symmetric .e key.bytes, rest }
  | static (key : PublicKey) (rest : Bytes) : r.rest = r.symmetric.ciphertext key.bytes ++ rest →
    ¬ r.symmetric.cipher.Exhausted →
    Takes p role psk r .s
      { slots := r.slots.setRemoteStatic key
        symmetric := r.symmetric.passed (r.symmetric.ciphertext key.bytes), rest }
  | secret {t : Token} {s : SymmetricState} : t ≠ .e → t ≠ .s →
    mixSecret r.slots psk role r.symmetric t = .ok s →
    Takes p role psk r t { r with symmetric := s }

theorem Reading.token_takes {p : Pattern} {role : Role} {psk : Option PresharedKey} {r r' : Reading}
    {t : Token} (hs : r.symmetric.WellKeyed) (h : token p role psk r t = .ok r') :
    Takes p role psk r t r' := by
  rcases t.carries with rfl | rfl | ⟨hne, hns⟩
  · rw [token_e] at h
    split at h
    · cases h
      exact .ephemeral _ _ (List.take_append_drop PublicKey.length r.rest).symm
    · cases h
  · rw [token_s] at h
    dsimp only at h
    split at h
    · cases h
    split at h
    · rename_i n key hres hkey
      cases h
      obtain ⟨plaintext, hlen, hcipher, hn, hstate, harea⟩ :=
        SymmetricState.decryptAndHash_ok hs hres
      -- the key fills the area it is decrypted to
      have hall : (r.symmetric.decryptAndHash
          (r.rest.take (PublicKey.length + r.symmetric.overhead))
          (Bytes.zeros PublicKey.length)).area = plaintext := by
        have hgrowth := SymmetricState.length_ciphertext hs plaintext
        rw [hcipher, List.length_take, Nat.min_eq_left (Nat.not_lt.mp ‹_›)] at hgrowth
        refine Eq.trans (List.take_of_length_le ?_).symm harea
        rw [SymmetricState.length_area_decryptAndHash, Bytes.length_zeros]
        omega
      obtain rfl : key.bytes = plaintext := by
        rw [hall, PublicKey.ofBytes] at hkey
        split at hkey
        · cases hkey
          rfl
        · cases hkey
      rw [hstate, ← hcipher]
      refine .static key _ ?_ hn
      rw [hcipher, List.take_append_drop]
    · cases h
    · cases h
  · rw [token_secret hne hns] at h
    split at h
    · cases h
      exact .secret hne hns ‹_›
    · cases h

/-- The payload that has been read is what the rest of the message is the ciphertext of. -/
theorem Reading.payload_ok {r : Reading} (hs : r.symmetric.WellKeyed) {area : Bytes} {n : Nat}
    (h : (r.payload area).result = .ok n) :
    ∃ plaintext, r.rest = r.symmetric.ciphertext plaintext ∧ ¬ r.symmetric.cipher.Exhausted ∧
      (r.payload area).area.take n = plaintext ∧
      (r.payload area).state.symmetric = r.symmetric.passed (r.symmetric.ciphertext plaintext) := by
  unfold payload at h ⊢
  split at h
  · cases h
  · rw [if_neg ‹_›]
    obtain ⟨plaintext, -, hcipher, hn, hstate, harea⟩ := SymmetricState.decryptAndHash_ok hs h
    refine ⟨plaintext, hcipher.symm, hn, harea, ?_⟩
    rw [hcipher]
    exact hstate

/-! ## Rows of fields -/

/-- A token takes a symmetric state further and puts a field into the message. -/
inductive Absorbs (p : Pattern) (s : SymmetricState) : Token → Bytes → SymmetricState → Prop where
  | ephemeral (key : PublicKey) : Absorbs p s .e key.bytes (mixPublic p s .e key.bytes)
  | static (key : PublicKey) :
    Absorbs p s .s (s.ciphertext key.bytes) (s.passed (s.ciphertext key.bytes))
  | agreed {t : Token} (secret : SharedSecret) : t ≠ .e → t ≠ .s → t ≠ .psk →
    Absorbs p s t [] (s.mixKey secret.bytes)
  | shared (key : PresharedKey) : Absorbs p s .psk [] (s.mixKeyAndHash key.bytes)

/-- A message with the given tokens takes a symmetric state further. -/
inductive Conveys (p : Pattern) : List Token → SymmetricState → Bytes → SymmetricState → Prop where
  | payload {s : SymmetricState} (plaintext : Bytes) :
    Conveys p [] s (s.ciphertext plaintext) (s.passed (s.ciphertext plaintext))
  | token {t : Token} {tokens : List Token} {s s' s'' : SymmetricState} {field rest : Bytes} :
    Absorbs p s t field s' → Conveys p tokens s' rest s'' →
    Conveys p (t :: tokens) s (field ++ rest) s''

section Fields

variable {p : Pattern} {role : Role} {psk : Option PresharedKey} {t : Token} {tokens : List Token}
  {s s' : SymmetricState} {field message : Bytes}

theorem absorbs_secret {slots : KeySlots} (he : t ≠ .e) (hs : t ≠ .s)
    (h : mixSecret slots psk role s t = .ok s') : Absorbs p s t [] s' := by
  cases t with
  | e => exact absurd rfl he
  | s => exact absurd rfl hs
  | ee | es | se | ss =>
    obtain ⟨secret, -, rfl⟩ := map_ok h
    exact .agreed secret (by decide) (by decide) (by decide)
  | psk =>
    cases psk with
    | none => cases h
    | some key =>
      cases h
      exact .shared key

theorem Writing.Puts.absorbs {w w' : Writing} (h : Writing.Puts p role psk w t w') :
    ∃ field, w'.written = w.written ++ field ∧ Absorbs p w.symmetric t field w'.symmetric := by
  cases h with
  | ephemeral pair free entropy => exact ⟨_, rfl, .ephemeral pair.publicKey⟩
  | static pair free hown => exact ⟨_, rfl, .static pair.publicKey⟩
  | secret he hs hmix => exact ⟨[], (List.append_nil _).symm, absorbs_secret he hs hmix⟩

theorem Reading.Takes.absorbs {r r' : Reading} (h : Reading.Takes p role psk r t r') :
    ∃ field, r.rest = field ++ r'.rest ∧ Absorbs p r.symmetric t field r'.symmetric := by
  cases h with
  | ephemeral key rest hrest => exact ⟨_, hrest, .ephemeral key⟩
  | static key rest hrest hn => exact ⟨_, hrest, .static key⟩
  | secret he hs hmix => exact ⟨[], rfl, absorbs_secret he hs hmix⟩

/-! ## One field -/

theorem Absorbs.wellKeyed (h : Absorbs p s t field s') (hs : s.WellKeyed) : s'.WellKeyed := by
  cases h with
  | ephemeral key => exact wellKeyed_mixPublic p hs .e _
  | static key => exact hs.passed _
  | agreed secret => exact SymmetricState.wellKeyed_mixKey _ _
  | shared key => exact SymmetricState.wellKeyed_mixKeyAndHash _ _

theorem Absorbs.nonce_le (h : Absorbs p s t field s') :
    s'.cipher.nonce.toNat ≤ s.cipher.nonce.toNat + 1 := by
  cases h with
  | ephemeral key => exact Nat.le_succ_of_le (nonce_mixPublic_le p s .e _)
  | static key =>
    rw [SymmetricState.passed_cipher]
    exact CipherState.toNat_nonce_passed_le _
  | agreed secret => exact Nat.zero_le _
  | shared key => exact Nat.zero_le _

theorem Absorbs.hasKey_eq (h : Absorbs p s t field s') :
    s'.hasKey = keyedAfter p.usesPsk s.hasKey t := by
  cases h with
  | ephemeral key => exact hasKey_mixPublic _ _ _
  | static key => exact SymmetricState.hasKey_passed _ _
  | agreed secret he hs => rw [keyedAfter_secret he hs, SymmetricState.hasKey_mixKey]
  | shared key => rfl

theorem Absorbs.length_field (h : Absorbs p s t field s') (hs : s.WellKeyed) :
    field.length = tokenSize s.hasKey t := by
  cases h with
  | ephemeral key => exact key.length_bytes
  | static key => rw [SymmetricState.length_ciphertext hs, key.length_bytes]; rfl
  | agreed secret he hs => rw [tokenSize_secret he hs, List.length_nil]
  | shared key => rfl

/-! ## Whole messages -/

theorem Conveys.wellKeyed (h : Conveys p tokens s message s') (hs : s.WellKeyed) :
    s'.WellKeyed := by
  induction h with
  | payload plaintext => exact hs.passed _
  | token hfield _ ih => exact ih (hfield.wellKeyed hs)

theorem Conveys.nonce_le (h : Conveys p tokens s message s') :
    s'.cipher.nonce.toNat ≤ s.cipher.nonce.toNat + (tokens.length + 1) := by
  induction h with
  | payload plaintext =>
    rw [SymmetricState.passed_cipher]
    exact CipherState.toNat_nonce_passed_le _
  | token hfield _ ih =>
    have hstep := hfield.nonce_le
    rw [List.length_cons]
    omega

theorem Conveys.hasKey_eq (h : Conveys p tokens s message s') :
    s'.hasKey = tokens.foldl (keyedAfter p.usesPsk) s.hasKey := by
  induction h with
  | payload plaintext => exact SymmetricState.hasKey_passed _ _
  | token hfield _ ih => rw [ih, hfield.hasKey_eq, List.foldl_cons]

/-- A message that is being written stops at its first token, or goes on behind it. -/
theorem Writing.run_cons {w : Writing} (hs : w.symmetric.WellKeyed) (payload : Bytes) :
    (∃ stop, token p role psk w t = .error stop ∧
      w.run p role psk (t :: tokens) payload = .error stop) ∨
    ∃ w', Puts p role psk w t w' ∧ w'.symmetric.WellKeyed ∧
      w.run p role psk (t :: tokens) payload = w'.run p role psk tokens payload := by
  rw [run, List.foldlM_cons]
  cases ht : token p role psk w t with
  | error stop => exact Or.inl ⟨stop, rfl, rfl⟩
  | ok w' =>
    have hputs := token_puts hs ht
    obtain ⟨_, -, habsorbs⟩ := hputs.absorbs
    exact Or.inr ⟨w', hputs, habsorbs.wellKeyed hs, rfl⟩

theorem Reading.run_cons {r : Reading} (hs : r.symmetric.WellKeyed) (area : Bytes) :
    (∃ stop, token p role psk r t = .error stop ∧
      r.run p role psk (t :: tokens) area = ⟨stop.reached, area, .error stop.error⟩) ∨
    ∃ r', Takes p role psk r t r' ∧ r'.symmetric.WellKeyed ∧
      r.run p role psk (t :: tokens) area = r'.run p role psk tokens area := by
  rw [run, List.foldlM_cons]
  cases ht : token p role psk r t with
  | error stop => exact Or.inl ⟨stop, rfl, rfl⟩
  | ok r' =>
    have htakes := token_takes hs ht
    obtain ⟨_, -, habsorbs⟩ := htakes.absorbs
    exact Or.inr ⟨r', htakes, habsorbs.wellKeyed hs, rfl⟩

/-- What has been written conveys where it has taken its writer. -/
theorem Writing.conveys {payload : Bytes} {w w' : Writing} (hs : w.symmetric.WellKeyed)
    (h : w.run p role psk tokens payload = .ok w') :
    ∃ message, w'.written = w.written ++ message ∧
      Conveys p tokens w.symmetric message w'.symmetric := by
  induction tokens generalizing w with
  | nil =>
    obtain ⟨free, rfl⟩ := appendEncrypted_inv hs h
    exact ⟨_, rfl, .payload payload⟩
  | cons t ts ih =>
    rcases run_cons hs payload with ⟨stop, -, hrun⟩ | ⟨w₁, hputs, hs₁, hrun⟩
    · rw [hrun] at h
      cases h
    · rw [hrun] at h
      obtain ⟨field, hfield, habsorbs⟩ := hputs.absorbs
      obtain ⟨rest, hrest, hconveys⟩ := ih hs₁ h
      refine ⟨field ++ rest, ?_, .token habsorbs hconveys⟩
      rw [hrest, hfield, List.append_assoc]

/-- What has been read conveys where it has taken its reader. -/
theorem Reading.conveys {area : Bytes} {r : Reading} {n : Nat} (hs : r.symmetric.WellKeyed)
    (h : (r.run p role psk tokens area).result = .ok n) :
    Conveys p tokens r.symmetric r.rest (r.run p role psk tokens area).state.symmetric := by
  induction tokens generalizing r with
  | nil =>
    obtain ⟨plaintext, hrest, -, -, hstate⟩ := payload_ok hs h
    show Conveys p [] r.symmetric r.rest (r.payload area).state.symmetric
    rw [hstate, hrest]
    exact .payload plaintext
  | cons t ts ih =>
    rcases run_cons hs area with ⟨stop, -, hrun⟩ | ⟨r₁, htakes, hs₁, hrun⟩
    · rw [hrun] at h
      cases h
    · rw [hrun] at h ⊢
      obtain ⟨field, hfield, habsorbs⟩ := htakes.absorbs
      rw [hfield]
      exact .token habsorbs (ih hs₁ h)

end Fields

end Handshake

end NoiseChannel
