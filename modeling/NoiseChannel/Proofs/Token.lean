import NoiseChannel.Handshake.Message
import NoiseChannel.Proofs.Symmetric

/-!
# The tokens of a handshake message

What one token does to a message that is being written or read: an equation for each kind of token,
how many bytes it takes, whether the cipher has a key afterwards, for which reasons it can be
refused, and which key slots it touches. What every token keeps is kept by the fold over all of them
(`reached_foldlM_keeps`), and with the payload that follows by the whole message
(`reached_run_keeps`), also when it is interrupted.
-/

namespace NoiseChannel

/-- A token carries an ephemeral key, a static key, or none. -/
theorem Token.carries (t : Token) : t = .e ∨ t = .s ∨ (t ≠ .e ∧ t ≠ .s) := by
  cases t <;> simp

namespace Handshake

/-! ## Where a fold over tokens stops -/

section Reached

variable {σ : Type}

/-- What had become of a message when its processing stopped, be it finished or not. -/
def reached : Except (Interrupted σ) σ → σ
  | .ok m => m
  | .error stop => stop.reached

/-- What every token keeps is kept by all of them, also when they are interrupted. -/
theorem reached_foldlM_keeps {P : σ → Prop} {step : σ → Token → Except (Interrupted σ) σ}
    {tokens : List Token} (hstep : ∀ t ∈ tokens, ∀ m, P m → P (reached (step m t))) {m : σ}
    (hm : P m) : P (reached (tokens.foldlM step m)) := by
  induction tokens generalizing m with
  | nil => exact hm
  | cons t ts ih =>
    have ht := hstep t List.mem_cons_self m hm
    rw [List.foldlM_cons]
    cases hresult : step m t with
    | error stop =>
      rw [hresult] at ht
      exact ht
    | ok m' =>
      rw [hresult] at ht
      exact ih (fun u hu => hstep u (List.mem_cons_of_mem t hu)) ht

/-- So what every token leaves alone is left alone by all of them. -/
theorem reached_foldlM {β : Type} (g : σ → β) {step : σ → Token → Except (Interrupted σ) σ}
    {tokens : List Token} (h : ∀ t ∈ tokens, ∀ m, g (reached (step m t)) = g m) (m : σ) :
    g (reached (tokens.foldlM step m)) = g m :=
  reached_foldlM_keeps (P := fun m' => g m' = g m) (fun t ht m' hm => (h t ht m').trans hm) rfl

end Reached

/-- What succeeds has succeeded step by step. -/
theorem bind_ok {ε α β : Type} {r : Except ε α} {f : α → Except ε β} {b : β}
    (h : r >>= f = .ok b) : ∃ a, r = .ok a ∧ f a = .ok b := by
  cases r with
  | ok a => exact ⟨a, rfl, h⟩
  | error e => cases h

/-! ## Tokens that stand for a secret -/

section Mapped

variable {α β : Type} {r : Except Error α} {f : α → β}

theorem map_ok {b : β} (h : r.map f = .ok b) : ∃ a, r = .ok a ∧ f a = b := by
  cases r with
  | ok a => exact ⟨a, rfl, Except.ok.inj h⟩
  | error e => cases h

theorem map_error {e : Error} (h : r.map f = .error e) : r = .error e := by
  cases r with
  | ok a => cases h
  | error e' => exact congrArg Except.error (Except.error.inj h)

end Mapped

/-- Key agreement is refused for want of a key or for a bad one. -/
theorem agree_error {mine : Option KeyPair} {theirs : Option PublicKey} {e : Error}
    (h : KeySlots.agree mine theirs = .error e) : e = .missingKey ∨ e = .badKey := by
  unfold KeySlots.agree at h
  split at h
  · simp only [SecretKey.agree] at h
    split at h <;> cases h
    exact Or.inr rfl
  · cases h
    exact Or.inl rfl

/-- The secret of a token comes from key agreement, or it is the pre-shared key. -/
theorem mixSecret_cases {t : Token} (he : t ≠ .e) (hs : t ≠ .s) (slots : KeySlots)
    (psk : Option PresharedKey) (role : Role) (s : SymmetricState) :
    (∃ mine theirs, mixSecret slots psk role s t =
        (KeySlots.agree mine theirs).map fun secret => s.mixKey secret.bytes) ∨
      (∃ key : PresharedKey, mixSecret slots psk role s t = .ok (s.mixKeyAndHash key.bytes)) ∨
      mixSecret slots psk role s t = .error .missingKey := by
  cases t with
  | e => exact absurd rfl he
  | s => exact absurd rfl hs
  | ee => exact Or.inl ⟨_, _, rfl⟩
  | es => cases role <;> exact Or.inl ⟨_, _, rfl⟩
  | se => cases role <;> exact Or.inl ⟨_, _, rfl⟩
  | ss => exact Or.inl ⟨_, _, rfl⟩
  | psk =>
    cases psk with
    | some key => exact Or.inr (Or.inl ⟨key, rfl⟩)
    | none => exact Or.inr (Or.inr rfl)

/-- The mixing of a secret is refused for the same reasons. -/
theorem mixSecret_error {slots : KeySlots} {psk : Option PresharedKey} {role : Role}
    {s : SymmetricState} {t : Token} {e : Error} (h : mixSecret slots psk role s t = .error e) :
    e = .missingKey ∨ e = .badKey := by
  rcases t.carries with rfl | rfl | ⟨he, hs⟩
  · cases h
  · cases h
  · rcases mixSecret_cases he hs slots psk role s with ⟨mine, theirs, heq⟩ | ⟨key, heq⟩ | heq
    · rw [heq] at h
      exact agree_error (map_error h)
    · rw [heq] at h
      cases h
    · rw [heq] at h
      cases h
      exact Or.inl rfl

/-- A secret that is mixed in makes new keys of full length, and counting starts at zero. -/
theorem mixSecret_ok {slots : KeySlots} {psk : Option PresharedKey} {role : Role}
    {s s' : SymmetricState} {t : Token} (he : t ≠ .e) (hs : t ≠ .s)
    (h : mixSecret slots psk role s t = .ok s') :
    s'.hasKey = true ∧ s'.Sized ∧ s'.cipher.nonce = 0 := by
  rcases mixSecret_cases he hs slots psk role s with ⟨mine, theirs, heq⟩ | ⟨key, heq⟩ | heq
  · rw [heq] at h
    obtain ⟨secret, -, rfl⟩ := map_ok h
    exact ⟨rfl, SymmetricState.sized_mixKey _ _, rfl⟩
  · rw [heq] at h
    cases h
    exact ⟨rfl, SymmetricState.sized_mixKeyAndHash _ _, rfl⟩
  · rw [heq] at h
    cases h

theorem keyedAfter_secret {usesPsk keyed : Bool} {t : Token} (he : t ≠ .e) (hs : t ≠ .s) :
    keyedAfter usesPsk keyed t = true := by
  cases t <;> first | rfl | contradiction

theorem tokenSize_secret {keyed : Bool} {t : Token} (he : t ≠ .e) (hs : t ≠ .s) :
    tokenSize keyed t = 0 := by
  cases t <;> first | rfl | contradiction

/-- The tag that a message ends with is the overhead of the state that encrypts it. -/
theorem overhead_eq_tagSize (s : SymmetricState) : s.overhead = tagSize s.hasKey := rfl

/-! ## Public keys -/

@[simp] theorem hasKey_mixPublic (p : Pattern) (s : SymmetricState) (key : Bytes) :
    (mixPublic p s .e key).hasKey = (s.hasKey || p.usesPsk) := by
  unfold mixPublic
  cases p.usesPsk <;> simp

theorem wellKeyed_mixPublic (p : Pattern) {s : SymmetricState} (h : s.WellKeyed) (t : Token)
    (key : Bytes) : (mixPublic p s t key).WellKeyed := by
  unfold mixPublic
  split
  · exact SymmetricState.wellKeyed_mixKey _ _
  · exact h.mixHash _

/-- Mixing a public key in leaves the counter alone, unless it starts a new one. -/
theorem nonce_mixPublic_le (p : Pattern) (s : SymmetricState) (t : Token) (key : Bytes) :
    (mixPublic p s t key).cipher.nonce.toNat ≤ s.cipher.nonce.toNat := by
  unfold mixPublic
  split
  · exact Nat.zero_le _
  · exact Nat.le_of_eq (by rw [SymmetricState.mixHash_cipher])

/-- The pair that an ephemeral token announces is the one in its slot, or a fresh one that is put
there; only then is anything drawn. -/
theorem generateLocalEphemeral_getD (slots : KeySlots) (entropy : Entropy) :
    slots.generateLocalEphemeral entropy =
      ((slots.localEphemeral.getD (KeyPair.generate entropy).1).publicKey,
        { slots with
          localEphemeral := some (slots.localEphemeral.getD (KeyPair.generate entropy).1) },
        if slots.localEphemeral.isSome then entropy else entropy.drop 32) := by
  rcases slots with ⟨localStatic, _ | pair, remoteStatic, remoteEphemeral⟩ <;> rfl

theorem generateLocalEphemeral_eq (slots : KeySlots) (entropy : Entropy) :
    ∃ (pair : KeyPair) (left : Entropy),
      pair = slots.localEphemeral.getD (KeyPair.generate entropy).1 ∧
        slots.generateLocalEphemeral entropy =
          (pair.publicKey, { slots with localEphemeral := some pair }, left) :=
  ⟨_, _, rfl, generateLocalEphemeral_getD slots entropy⟩

/-! ## Writing -/

namespace Writing

variable {p : Pattern} {role : Role} {psk : Option PresharedKey} {w w' : Writing}

/-- An ephemeral key is made if there is none, appended in the clear and mixed in. -/
theorem token_e (p : Pattern) (role : Role) (psk : Option PresharedKey) (w : Writing) :
    token p role psk w .e =
      let made := w.slots.generateLocalEphemeral w.entropy
      let w := { w with slots := made.2.1, entropy := made.2.2 }
      if w.free.length < PublicKey.length then .error ⟨.bufferTooSmall, w⟩
      else .ok { w with
        symmetric := mixPublic p w.symmetric .e made.1.bytes
        written := w.written ++ made.1.bytes
        free := w.free.drop PublicKey.length } := by
  have hlen : (w.slots.generateLocalEphemeral w.entropy).1.bytes.length = PublicKey.length :=
    PublicKey.length_bytes _
  by_cases hlt : w.free.length < PublicKey.length
  · simp only [token, append, hlen, if_pos hlt]
    rfl
  · simp only [token, append, hlen, if_neg hlt]
    rfl

theorem token_s (p : Pattern) (role : Role) (psk : Option PresharedKey) (w : Writing) :
    token p role psk w .s =
      match w.slots.localStaticPublic with
      | some key => w.appendEncrypted key.bytes
      | none => .error ⟨.missingKey, w⟩ :=
  rfl

theorem token_secret {t : Token} (he : t ≠ .e) (hs : t ≠ .s) (p : Pattern) (role : Role)
    (psk : Option PresharedKey) (w : Writing) :
    token p role psk w t =
      match mixSecret w.slots psk role w.symmetric t with
      | .ok symmetric => .ok { w with symmetric }
      | .error e => .error ⟨e, w⟩ := by
  cases t <;> first | rfl | contradiction

/-- Appending encrypted bytes takes as much room as they grow to, and touches neither slots nor
randomness. -/
theorem appendEncrypted_ok {plaintext : Bytes} (h : w.appendEncrypted plaintext = .ok w') :
    w'.symmetric.hasKey = w.symmetric.hasKey ∧ w'.symmetric.inPrologue = false ∧
      w'.slots = w.slots ∧ w'.entropy = w.entropy ∧
      w'.free.length + (plaintext.length + tagSize w.symmetric.hasKey) = w.free.length := by
  have hres := SymmetricState.result_encryptAndHash w.symmetric plaintext w.free
  have hlen := SymmetricState.length_area_encryptAndHash w.symmetric plaintext w.free
  have hkey := SymmetricState.hasKey_encryptAndHash w.symmetric plaintext w.free
  have hpro := SymmetricState.inPrologue_encryptAndHash w.symmetric plaintext w.free
  rw [overhead_eq_tagSize] at hres
  simp only [appendEncrypted] at h
  split at h
  · rename_i n hn
    rw [hn] at hres
    cases h
    refine ⟨hkey, hpro, rfl, rfl, ?_⟩
    rw [List.length_drop, hlen]
    split at hres
    · cases hres
    · split at hres
      · cases hres
      · cases hres
        omega
  · cases h

/-- Where the free area has room, appending encrypted bytes is refused for the counter only. -/
theorem appendEncrypted_error {plaintext : Bytes} {stop : Interrupted Writing}
    (hroom : plaintext.length + tagSize w.symmetric.hasKey ≤ w.free.length)
    (h : w.appendEncrypted plaintext = .error stop) :
    stop.error = .nonceExhausted ∧ stop.reached.slots = w.slots ∧
      stop.reached.entropy = w.entropy := by
  have hres := SymmetricState.result_encryptAndHash w.symmetric plaintext w.free
  rw [overhead_eq_tagSize] at hres
  simp only [appendEncrypted] at h
  split at h
  · cases h
  · rename_i e he
    rw [he] at hres
    cases h
    split at hres
    · cases hres
      exact ⟨rfl, rfl, rfl⟩
    · rw [if_neg (by omega)] at hres
      cases hres

/-- A token that goes through takes the room foretold and leaves the key foretold. -/
theorem token_ok {t : Token} (h : token p role psk w t = .ok w') :
    w'.symmetric.hasKey = keyedAfter p.usesPsk w.symmetric.hasKey t ∧
      w'.free.length + tokenSize w.symmetric.hasKey t = w.free.length := by
  rcases t.carries with rfl | rfl | ⟨he, hs⟩
  · rw [token_e] at h
    dsimp only at h
    split at h
    · cases h
    · cases h
      refine ⟨hasKey_mixPublic _ _ _, ?_⟩
      rw [List.length_drop]
      exact Nat.sub_add_cancel (Nat.not_lt.mp ‹_›)
  · rw [token_s] at h
    split at h
    · rename_i key _
      obtain ⟨hkey, -, -, -, hfree⟩ := appendEncrypted_ok h
      rw [key.length_bytes] at hfree
      exact ⟨hkey, hfree⟩
    · cases h
  · rw [token_secret he hs] at h
    split at h
    · rename_i symmetric hmix
      cases h
      rw [keyedAfter_secret he hs, tokenSize_secret he hs]
      exact ⟨(mixSecret_ok he hs hmix).1, rfl⟩
    · cases h

/-- With the room foretold no token runs out of it. -/
theorem token_error {t : Token} {stop : Interrupted Writing}
    (hroom : tokenSize w.symmetric.hasKey t ≤ w.free.length)
    (h : token p role psk w t = .error stop) : stop.error ≠ .bufferTooSmall := by
  rcases t.carries with rfl | rfl | ⟨he, hs⟩
  · rw [token_e] at h
    dsimp only at h
    split at h
    · exact absurd hroom (Nat.not_le.mpr ‹_›)
    · cases h
  · rw [token_s] at h
    split at h
    · rename_i key _
      have hneed : key.bytes.length + tagSize w.symmetric.hasKey ≤ w.free.length := by
        rw [key.length_bytes]
        exact hroom
      rw [(appendEncrypted_error hneed h).1]
      decide
    · cases h
      simp
  · rw [token_secret he hs] at h
    split at h
    · cases h
    · rename_i e hmix
      cases h
      rcases mixSecret_error hmix with rfl | rfl <;> simp

/-- What has been written stays written. -/
theorem appendEncrypted_written {plaintext : Bytes} (h : w.appendEncrypted plaintext = .ok w') :
    w.written <+: w'.written := by
  simp only [appendEncrypted] at h
  split at h
  · cases h
    exact List.prefix_append _ _
  · cases h

theorem token_written {t : Token} (h : token p role psk w t = .ok w') :
    w.written <+: w'.written := by
  rcases t.carries with rfl | rfl | ⟨he, hs⟩
  · rw [token_e] at h
    dsimp only at h
    split at h
    · cases h
    · cases h
      exact List.prefix_append _ _
  · rw [token_s] at h
    split at h
    · exact appendEncrypted_written h
    · cases h
  · rw [token_secret he hs] at h
    split at h
    · cases h
      exact List.prefix_rfl
    · cases h

/-- The payload, or a static key, touches neither slots nor randomness. -/
theorem reached_appendEncrypted (w : Writing) (plaintext : Bytes) :
    (reached (w.appendEncrypted plaintext)).slots = w.slots ∧
      (reached (w.appendEncrypted plaintext)).entropy = w.entropy := by
  unfold appendEncrypted
  dsimp only
  split <;> exact ⟨rfl, rfl⟩

/-- Only an ephemeral key that is sent changes the slots. -/
theorem reached_token_same {t : Token} (he : t ≠ .e) (p : Pattern) (role : Role)
    (psk : Option PresharedKey) (w : Writing) :
    (reached (token p role psk w t)).slots = w.slots := by
  by_cases hs : t = .s
  · subst hs
    rw [token_s]
    split
    · exact (reached_appendEncrypted w _).1
    · rfl
  · rw [token_secret he hs]
    split <;> rfl

/-- Nor does any other token draw. -/
theorem reached_token_entropy {t : Token} (he : t ≠ .e) (p : Pattern) (role : Role)
    (psk : Option PresharedKey) (w : Writing) :
    (reached (token p role psk w t)).entropy = w.entropy := by
  by_cases hs : t = .s
  · subst hs
    rw [token_s]
    split
    · exact (reached_appendEncrypted w _).2
    · rfl
  · rw [token_secret he hs]
    split <;> rfl

/-- Writing leaves this party's static pair and the peer's keys alone. -/
theorem reached_token_slots (p : Pattern) (role : Role) (psk : Option PresharedKey) (t : Token)
    (w : Writing) :
    (reached (token p role psk w t)).slots =
      { w.slots with localEphemeral := (reached (token p role psk w t)).slots.localEphemeral } := by
  by_cases he : t = .e
  · subst he
    obtain ⟨pair, left, -, hmade⟩ := generateLocalEphemeral_eq w.slots w.entropy
    rw [token_e, hmade]
    dsimp only
    split <;> rfl
  · rw [reached_token_same he]

/-- What every token and the payload keep is kept by a message, also when it is interrupted. -/
theorem reached_run_keeps {P : Writing → Prop} {tokens : List Token} {payload : Bytes}
    (htoken : ∀ t ∈ tokens, ∀ m, P m → P (reached (token p role psk m t)))
    (hpayload : ∀ m, P m → P (reached (m.appendEncrypted payload))) (hw : P w) :
    P (reached (w.run p role psk tokens payload)) := by
  have htokens : P (reached (tokens.foldlM (token p role psk) w)) :=
    reached_foldlM_keeps htoken hw
  rw [run]
  cases hfold : tokens.foldlM (token p role psk) w with
  | error stop =>
    rw [hfold] at htokens
    exact htokens
  | ok m =>
    rw [hfold] at htokens
    exact hpayload m htokens

/-- A message that has been written has had its tokens written, and then its payload. -/
theorem run_done {tokens : List Token} {payload : Bytes}
    (h : w.run p role psk tokens payload = .ok w') :
    ∃ m, tokens.foldlM (token p role psk) w = .ok m ∧ m.appendEncrypted payload = .ok w' :=
  bind_ok h

theorem foldlM_written {tokens : List Token} (h : tokens.foldlM (token p role psk) w = .ok w') :
    w.written <+: w'.written := by
  induction tokens generalizing w with
  | nil =>
    cases h
    exact List.prefix_rfl
  | cons t ts ih =>
    rw [List.foldlM_cons] at h
    obtain ⟨w₁, ht, hrest⟩ := bind_ok h
    exact (token_written ht).trans (ih hrest)

theorem run_written {tokens : List Token} {payload : Bytes}
    (h : w.run p role psk tokens payload = .ok w') :
    w.written <+: w'.written := by
  obtain ⟨m, hfold, hlast⟩ := run_done h
  exact (foldlM_written hfold).trans (appendEncrypted_written hlast)

/-- Writing a message changes no slot but that of this party's ephemeral pair, however it ends. -/
theorem reached_run_slots (p : Pattern) (role : Role) (psk : Option PresharedKey)
    (tokens : List Token) (payload : Bytes) (w : Writing) :
    (reached (w.run p role psk tokens payload)).slots =
      { w.slots with
        localEphemeral :=
          (reached (w.run p role psk tokens payload)).slots.localEphemeral } := by
  refine reached_run_keeps (P := fun m => m.slots =
    { w.slots with localEphemeral := m.slots.localEphemeral }) ?_ ?_ rfl
  · intro t _ m hm
    rw [reached_token_slots, hm]
  · intro m hm
    rw [(reached_appendEncrypted m payload).1]
    exact hm

end Writing

/-! ## Reading -/

namespace Reading

variable {p : Pattern} {role : Role} {psk : Option PresharedKey} {r r' : Reading}

/-- An ephemeral key is taken from the message as it stands, mixed in and kept. -/
theorem token_e (p : Pattern) (role : Role) (psk : Option PresharedKey) (r : Reading) :
    token p role psk r .e =
      if h : (r.rest.take PublicKey.length).length = 32 then
        .ok {
          slots := r.slots.setRemoteEphemeral ⟨r.rest.take PublicKey.length, h⟩
          symmetric := mixPublic p r.symmetric .e (r.rest.take PublicKey.length)
          rest := r.rest.drop PublicKey.length }
      else .error ⟨.badMessage, r⟩ := by
  simp only [token, take]
  by_cases hlt : r.rest.length < PublicKey.length
  · have hne : ¬ (r.rest.take PublicKey.length).length = 32 := by
      rw [List.length_take]
      have : PublicKey.length = 32 := rfl
      omega
    rw [if_pos hlt, dif_neg hne]
    rfl
  · have heq : (r.rest.take PublicKey.length).length = 32 := by
      rw [List.length_take]
      have : PublicKey.length = 32 := rfl
      omega
    rw [if_neg hlt, dif_pos heq]
    simp only [bind, Except.bind, publicKey, PublicKey.ofBytes, heq, dif_pos]
    rfl

/-- A static key is taken from the message and decrypted. -/
theorem token_s (p : Pattern) (role : Role) (psk : Option PresharedKey) (r : Reading) :
    token p role psk r .s =
      let size := PublicKey.length + r.symmetric.overhead
      let o := r.symmetric.decryptAndHash (r.rest.take size) (Bytes.zeros PublicKey.length)
      let after : Reading := { r with symmetric := o.state, rest := r.rest.drop size }
      if r.rest.length < size then .error ⟨.badMessage, r⟩
      else
        match o.result, PublicKey.ofBytes o.area with
        | .ok _, .ok key => .ok { after with slots := r.slots.setRemoteStatic key }
        | .ok _, .error e => .error ⟨e, after⟩
        | .error e, _ => .error ⟨e, after⟩ := by
  by_cases hlt : r.rest.length < PublicKey.length + r.symmetric.overhead
  · simp only [token, take, if_pos hlt]
    rfl
  · simp only [token, take, if_neg hlt, bind, Except.bind, publicKey]
    split
    · rename_i n hn
      simp only [hn]
      cases PublicKey.ofBytes (r.symmetric.decryptAndHash
        (r.rest.take (PublicKey.length + r.symmetric.overhead)) (Bytes.zeros PublicKey.length)).area
        <;> rfl
    · rename_i e he
      simp only [he]

theorem token_secret {t : Token} (he : t ≠ .e) (hs : t ≠ .s) (p : Pattern) (role : Role)
    (psk : Option PresharedKey) (r : Reading) :
    token p role psk r t =
      match mixSecret r.slots psk role r.symmetric t with
      | .ok symmetric => .ok { r with symmetric }
      | .error e => .error ⟨e, r⟩ := by
  cases t <;> first | rfl | contradiction

/-- A token that goes through takes the bytes foretold and leaves the key foretold. -/
theorem token_ok {t : Token} (h : token p role psk r t = .ok r') :
    r'.symmetric.hasKey = keyedAfter p.usesPsk r.symmetric.hasKey t ∧
      r'.rest.length + tokenSize r.symmetric.hasKey t = r.rest.length := by
  rcases t.carries with rfl | rfl | ⟨he, hs⟩
  · rw [token_e] at h
    split at h
    · rename_i hlen
      cases h
      refine ⟨hasKey_mixPublic _ _ _, ?_⟩
      rw [List.length_take] at hlen
      rw [List.length_drop]
      have : PublicKey.length = 32 := rfl
      simp only [tokenSize]
      omega
    · cases h
  · rw [token_s] at h
    dsimp only at h
    split at h
    · cases h
    · rename_i hlt
      split at h
      · cases h
        refine ⟨SymmetricState.hasKey_decryptAndHash _ _ _, ?_⟩
        rw [List.length_drop]
        exact Nat.sub_add_cancel (Nat.not_lt.mp hlt)
      · cases h
      · cases h
  · rw [token_secret he hs] at h
    split at h
    · rename_i symmetric hmix
      cases h
      rw [keyedAfter_secret he hs, tokenSize_secret he hs]
      exact ⟨(mixSecret_ok he hs hmix).1, rfl⟩
    · cases h

/-- No token runs out of room when it is read. -/
theorem token_error {t : Token} {stop : Interrupted Reading}
    (h : token p role psk r t = .error stop) : stop.error ≠ .bufferTooSmall := by
  rcases t.carries with rfl | rfl | ⟨he, hs⟩
  · rw [token_e] at h
    split at h <;> cases h
    simp
  · rw [token_s] at h
    dsimp only at h
    split at h
    · cases h
      simp
    · rename_i hlt
      -- the key is decrypted into an area of its own size
      have hroom : (r.rest.take (PublicKey.length + r.symmetric.overhead)).length -
          r.symmetric.overhead ≤ (Bytes.zeros PublicKey.length).length := by
        rw [List.length_take, Bytes.length_zeros]
        omega
      have hne := SymmetricState.result_decryptAndHash_ne hroom
      split at h
      · cases h
      · rename_i e _ hkey
        cases h
        unfold PublicKey.ofBytes at hkey
        split at hkey <;> cases hkey
        simp
      · rename_i e he
        cases h
        intro hsmall
        rw [he] at hne
        exact hne (congrArg Except.error hsmall)
  · rw [token_secret he hs] at h
    split at h
    · cases h
    · rename_i e hmix
      cases h
      rcases mixSecret_error hmix with rfl | rfl <;> simp

/-- Reading leaves this party's own pairs alone. -/
theorem reached_token_slots (p : Pattern) (role : Role) (psk : Option PresharedKey) (t : Token)
    (r : Reading) :
    (reached (token p role psk r t)).slots.localStatic = r.slots.localStatic ∧
      (reached (token p role psk r t)).slots.localEphemeral = r.slots.localEphemeral := by
  rcases t.carries with rfl | rfl | ⟨he, hs⟩
  · rw [token_e]
    split <;> exact ⟨rfl, rfl⟩
  · rw [token_s]
    dsimp only
    split
    · exact ⟨rfl, rfl⟩
    · split <;> exact ⟨rfl, rfl⟩
  · rw [token_secret he hs]
    split <;> exact ⟨rfl, rfl⟩

/-- Only an ephemeral key in the message changes the peer's ephemeral key. -/
theorem reached_token_remoteEphemeral {t : Token} (he : t ≠ .e) (p : Pattern) (role : Role)
    (psk : Option PresharedKey) (r : Reading) :
    (reached (token p role psk r t)).slots.remoteEphemeral = r.slots.remoteEphemeral := by
  by_cases hs : t = .s
  · subst hs
    rw [token_s]
    dsimp only
    split
    · rfl
    · split <;> rfl
  · rw [token_secret he hs]
    split <;> rfl

/-- The payload has no part in the slots. -/
theorem run_state_slots (p : Pattern) (role : Role) (psk : Option PresharedKey)
    (tokens : List Token) (area : Bytes) (r : Reading) :
    (r.run p role psk tokens area).state.slots =
      (reached (tokens.foldlM (token p role psk) r)).slots := by
  unfold run
  cases tokens.foldlM (token p role psk) r with
  | error stop => rfl
  | ok r' =>
    show (r'.payload area).state.slots = r'.slots
    unfold payload
    split <;> rfl

/-- Reading a message leaves this party's own pairs alone, however it ends. -/
theorem run_own (p : Pattern) (role : Role) (psk : Option PresharedKey)
    (tokens : List Token) (area : Bytes) (r : Reading) :
    (r.run p role psk tokens area).state.slots.localStatic = r.slots.localStatic ∧
      (r.run p role psk tokens area).state.slots.localEphemeral = r.slots.localEphemeral := by
  rw [run_state_slots]
  constructor
  · exact reached_foldlM (fun r : Reading => r.slots.localStatic)
      (fun t _ r => (reached_token_slots p role psk t r).1) r
  · exact reached_foldlM (fun r : Reading => r.slots.localEphemeral)
      (fun t _ r => (reached_token_slots p role psk t r).2) r

end Reading

end Handshake

end NoiseChannel
