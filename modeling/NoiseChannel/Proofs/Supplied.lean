import NoiseChannel.Proofs.Moves

/-!
# Required keys suffice

What a party must hold before it starts is listed per protocol, what the tokens of its pattern use is
not: it depends on the role, on what has been said before and on what starting has removed. `Supplied`
says which keys a party holds that has followed the pattern so far. Each token finds the keys that it
uses (`Writing.token_error_supplied`, `Reading.token_error_supplied`) and leaves those for the next
one (`Writing.Puts.supplied`, `Reading.Takes.supplied`); `Provided` carries this over every call but
the removal of a key.
-/

namespace NoiseChannel

/-! ## Keys that are held -/

/-- Some key that a party holds of its own and some key of its peer agree on the all-zero secret. -/
def KeySlots.Degenerate (slots : KeySlots) : Prop :=
  ∃ pair key, (slots.localStatic = some pair ∨ slots.localEphemeral = some pair) ∧
    (slots.remoteStatic = some key ∨ slots.remoteEphemeral = some key) ∧
    Curve25519.scalarMult pair.secret.bytes key.bytes = Bytes.zeros 32

/-- The party in `role` holds the keys that the pattern has it bring along, its own keys that have
been announced, and those of its peer that are known. -/
structure Supplied (p : Pattern) (known : List (Role × Token)) (role : Role) (slots : KeySlots)
    (psk : Option PresharedKey) : Prop where
  localStatic : p.usesStatics = true → ∃ pair, slots.localStatic = some pair
  shared : p.usesPsk = true → ∃ key, psk = some key
  localEphemeral : (role, Token.e) ∈ known → ∃ pair, slots.localEphemeral = some pair
  remoteStatic : (role.peer, Token.s) ∈ known → ∃ key, slots.remoteStatic = some key
  remoteEphemeral : (role.peer, Token.e) ∈ known → ∃ key, slots.remoteEphemeral = some key

namespace Handshake

/-- Agreement between keys in the slots fails for the all-zero secret only. -/
theorem agree_held {slots : KeySlots} {mine : Option KeyPair} {theirs : Option PublicKey}
    (hmine : mine = slots.localStatic ∨ mine = slots.localEphemeral)
    (htheirs : theirs = slots.remoteStatic ∨ theirs = slots.remoteEphemeral)
    (hpair : ∃ pair, mine = some pair) (hkey : ∃ key, theirs = some key) {e : Error}
    (h : KeySlots.agree mine theirs = .error e) : e = .badKey ∧ slots.Degenerate := by
  obtain ⟨pair, rfl⟩ := hpair
  obtain ⟨key, rfl⟩ := hkey
  simp only [KeySlots.agree, SecretKey.agree] at h
  split at h
  · cases h
    exact ⟨rfl, pair, key, hmine.imp Eq.symm Eq.symm, htheirs.imp Eq.symm Eq.symm, ‹_›⟩
  · cases h

section Tokens

variable {p : Pattern} {known : List (Role × Token)} {role : Role} {psk : Option PresharedKey}
  {t : Token} {tokens : List Token}

/-- A secret whose ingredients have been announced can be mixed in, unless it is all-zero. -/
theorem mixSecret_supplied {slots : KeySlots} (h : Supplied p known role slots psk)
    (ht : ∃ tokens ∈ p.messages, t ∈ tokens) (hin : ∀ key ∈ t.ingredients, key ∈ known)
    {s : SymmetricState} {e : Error} (herror : mixSecret slots psk role s t = .error e) :
    e = .badKey ∧ slots.Degenerate := by
  have hstatic : t.usesStatic = true → ∃ pair, slots.localStatic = some pair :=
    fun huse => h.localStatic (Pattern.usesStatics_of_mem ht huse)
  cases t with
  | e | s => cases herror
  | ee =>
    exact agree_held (Or.inr rfl) (Or.inr rfl)
      (h.localEphemeral (hin _ (by cases role <;> decide)))
      (h.remoteEphemeral (hin _ (by cases role <;> decide))) (map_error herror)
  | ss =>
    exact agree_held (Or.inl rfl) (Or.inl rfl) (hstatic rfl)
      (h.remoteStatic (hin _ (by cases role <;> decide))) (map_error herror)
  | es =>
    cases role with
    | initiator =>
      exact agree_held (Or.inr rfl) (Or.inl rfl) (h.localEphemeral (hin _ (by decide)))
        (h.remoteStatic (hin _ (by decide))) (map_error herror)
    | responder =>
      exact agree_held (Or.inl rfl) (Or.inr rfl) (hstatic rfl)
        (h.remoteEphemeral (hin _ (by decide))) (map_error herror)
  | se =>
    cases role with
    | initiator =>
      exact agree_held (Or.inl rfl) (Or.inr rfl) (hstatic rfl)
        (h.remoteEphemeral (hin _ (by decide))) (map_error herror)
    | responder =>
      exact agree_held (Or.inr rfl) (Or.inl rfl) (h.localEphemeral (hin _ (by decide)))
        (h.remoteStatic (hin _ (by decide))) (map_error herror)
  | psk =>
    obtain ⟨key, rfl⟩ := h.shared (Pattern.usesPsk_of_mem ht)
    cases herror

/-- The keys known beforehand are held. -/
theorem mixPremessages_supplied {slots : KeySlots}
    (h : Supplied p (p.knownBefore 0) role slots psk) (s : SymmetricState) :
    ∃ s', mixPremessages p role slots s = .ok s' := by
  rw [mixPremessages_eq]
  cases p with
  | xx | nnPsk0 => exact ⟨s, rfl⟩
  | ik =>
    cases role with
    | initiator =>
      obtain ⟨key, hkey⟩ := h.remoteStatic (by decide)
      refine ⟨s.mixHash key.bytes, ?_⟩
      simp [premessageKey, hkey, Except.map]
    | responder =>
      obtain ⟨pair, hpair⟩ := h.localStatic rfl
      refine ⟨s.mixHash pair.publicKey.bytes, ?_⟩
      simp [premessageKey, KeySlots.localStaticPublic, hpair, Except.map]
  | xxFallback =>
    cases role with
    | initiator =>
      obtain ⟨pair, hpair⟩ := h.localEphemeral (by decide)
      refine ⟨s.mixHash pair.publicKey.bytes, ?_⟩
      simp [premessageKey, KeySlots.localEphemeralPublic, hpair, Except.map]
    | responder =>
      obtain ⟨key, hkey⟩ := h.remoteEphemeral (by decide)
      refine ⟨s.mixHash key.bytes, ?_⟩
      simp [premessageKey, hkey, Except.map]

/-! ## Writing -/

namespace Writing

variable {w w' : Writing}

/-- Encryption with a counter to spare is refused for want of room only. -/
theorem appendEncrypted_counted (hn : ¬ w.symmetric.cipher.Exhausted) {plaintext : Bytes}
    {stop : Interrupted Writing} (h : w.appendEncrypted plaintext = .error stop) :
    stop.error = .bufferTooSmall := by
  have hres := SymmetricState.result_encryptAndHash w.symmetric plaintext w.free
  rw [if_neg hn] at hres
  simp only [appendEncrypted] at h
  split at h
  · cases h
  · rename_i e he
    cases h
    rw [he] at hres
    split at hres <;> cases hres
    rfl

/-- A token that finds its keys is refused for want of room or for an all-zero secret only. -/
theorem token_error_supplied (h : Supplied p known role w.slots psk)
    (ht : ∃ tokens ∈ p.messages, t ∈ tokens) (hin : ∀ key ∈ t.ingredients, key ∈ known)
    (hn : ¬ w.symmetric.cipher.Exhausted) {stop : Interrupted Writing}
    (herror : token p role psk w t = .error stop) :
    stop.error = .bufferTooSmall ∨ stop.error = .badKey ∧ stop.reached.slots.Degenerate := by
  rcases t.carries with rfl | rfl | ⟨hne, hns⟩
  · rw [token_e] at herror
    dsimp only at herror
    split at herror
    · cases herror
      exact Or.inl rfl
    · cases herror
  · obtain ⟨pair, hpair⟩ := h.localStatic (Pattern.usesStatics_of_mem ht rfl)
    rw [token_s, KeySlots.localStaticPublic, hpair] at herror
    exact Or.inl (appendEncrypted_counted hn herror)
  · rw [token_secret hne hns] at herror
    split at herror
    · cases herror
    · cases herror
      exact Or.inr (mixSecret_supplied h ht hin ‹_›)

theorem Puts.supplied (hputs : Puts p role psk w t w') (h : Supplied p known role w.slots psk) :
    Supplied p (t.announces role ++ known) role w'.slots psk := by
  cases hputs with
  | ephemeral pair free entropy =>
    refine ⟨h.localStatic, h.shared, fun _ => ⟨pair, rfl⟩, fun hmem => ?_, fun hmem => ?_⟩
    · exact h.remoteStatic (by simpa [Token.announces] using hmem)
    · exact h.remoteEphemeral (by cases role <;> simpa [Token.announces, Role.peer] using hmem)
  | static pair free hown =>
    refine ⟨h.localStatic, h.shared, fun hmem => ?_, fun hmem => ?_, fun hmem => ?_⟩
    · exact h.localEphemeral (by simpa [Token.announces] using hmem)
    · exact h.remoteStatic (by cases role <;> simpa [Token.announces, Role.peer] using hmem)
    · exact h.remoteEphemeral (by simpa [Token.announces] using hmem)
  | secret he hs hmix =>
    rw [Token.announces_secret he hs]
    exact h

/-- The counter suffices for a message that finds its keys, and so do the keys. -/
theorem run_error_supplied {payload : Bytes} (h : Supplied p known role w.slots psk)
    (hs : w.symmetric.WellKeyed) (ht : ∀ t ∈ tokens, ∃ tokens ∈ p.messages, t ∈ tokens)
    (hfollow : Pattern.followable role tokens known = true)
    (hn : w.symmetric.cipher.nonce.toNat + tokens.length < CipherState.reservedNonce.toNat)
    {stop : Interrupted Writing} (herror : w.run p role psk tokens payload = .error stop) :
    stop.error = .bufferTooSmall ∨ stop.error = .badKey ∧ stop.reached.slots.Degenerate := by
  -- what is known grows with each token by what it announces, so that the next one finds its keys
  induction tokens generalizing w known with
  | nil => exact Or.inl (appendEncrypted_counted (CipherState.not_exhausted hn) herror)
  | cons t ts ih =>
    simp only [Pattern.followable, Bool.and_eq_true, List.all_eq_true,
      List.contains_iff_mem] at hfollow
    obtain ⟨hin, hfollow⟩ := hfollow
    obtain ⟨htoken, hlater⟩ := List.forall_mem_cons.mp ht
    rw [List.length_cons] at hn
    rcases run_cons hs payload with ⟨stop', htoken', hrun⟩ | ⟨w₁, hputs, hs₁, hrun⟩
    · obtain rfl : stop' = stop := Except.error.inj (hrun.symm.trans herror)
      exact token_error_supplied h htoken hin (CipherState.not_exhausted (by omega)) htoken'
    · obtain ⟨_, -, habsorbs⟩ := hputs.absorbs
      have hcount := habsorbs.nonce_le
      rw [hrun] at herror
      exact ih (hputs.supplied h) hs₁ hlater hfollow (by omega) herror

theorem run_supplied {payload : Bytes} (h : Supplied p known role w.slots psk)
    (hs : w.symmetric.WellKeyed) (hrun : w.run p role psk tokens payload = .ok w') :
    Supplied p (Pattern.announced role tokens known) role w'.slots psk := by
  induction tokens generalizing w known with
  | nil =>
    rw [(appendEncrypted_ok hrun).2.2.1]
    exact h
  | cons t ts ih =>
    rcases run_cons hs payload with ⟨stop, -, hcons⟩ | ⟨w₁, hputs, hs₁, hcons⟩
    · rw [hcons] at hrun
      cases hrun
    · rw [hcons] at hrun
      exact ih (hputs.supplied h) hs₁ hrun

end Writing

/-! ## Reading -/

namespace Reading

variable {r r' : Reading} {area : Bytes}

/-- Why a message may be refused that finds its keys. -/
def Excused (slots : KeySlots) (e : Error) : Prop :=
  e = .bufferTooSmall ∨ e = .badMessage ∨ e = .cryptoFailed ∨ e = .badKey ∧ slots.Degenerate

/-- Decryption with a counter to spare is refused for the message or for want of room only. -/
theorem decryptAndHash_counted {s : SymmetricState} (hn : ¬ s.cipher.Exhausted)
    {message area : Bytes} {e : Error} (h : (s.decryptAndHash message area).result = .error e)
    (slots : KeySlots) : Excused slots e := by
  rw [SymmetricState.result_decryptAndHash, if_neg hn] at h
  split at h
  · cases h
    exact Or.inr (Or.inl rfl)
  split at h
  · cases h
    exact Or.inl rfl
  split at h
  · cases h
  · cases h
    exact Or.inr (Or.inr (Or.inl rfl))

/-- A token that finds its keys is refused for the message or for an all-zero secret only. -/
theorem token_error_supplied (h : Supplied p known role r.slots psk)
    (ht : ∃ tokens ∈ p.messages, t ∈ tokens) (hin : ∀ key ∈ t.ingredients, key ∈ known)
    (hn : ¬ r.symmetric.cipher.Exhausted) {stop : Interrupted Reading}
    (herror : token p role psk r t = .error stop) :
    Excused stop.reached.slots stop.error := by
  rcases t.carries with rfl | rfl | ⟨hne, hns⟩
  · rw [token_e] at herror
    split at herror <;> cases herror
    exact Or.inr (Or.inl rfl)
  · rw [token_s] at herror
    dsimp only at herror
    split at herror
    · cases herror
      exact Or.inr (Or.inl rfl)
    split at herror
    · cases herror
    · -- the area that the key is decrypted to has the size of a key
      rename_i e _ hkey
      rw [PublicKey.ofBytes, dif_pos] at hkey
      · cases hkey
      · rw [SymmetricState.length_area_decryptAndHash, Bytes.length_zeros]
        rfl
    · rename_i e hres
      cases herror
      exact decryptAndHash_counted hn hres _
  · rw [token_secret hne hns] at herror
    split at herror
    · cases herror
    · cases herror
      exact Or.inr (Or.inr (Or.inr (mixSecret_supplied h ht hin ‹_›)))

theorem Takes.supplied (htakes : Takes p role psk r t r') (h : Supplied p known role r.slots psk) :
    Supplied p (t.announces role.peer ++ known) role r'.slots psk := by
  cases htakes with
  | ephemeral key rest hrest =>
    refine ⟨h.localStatic, h.shared, fun hmem => ?_, fun hmem => ?_, fun _ => ⟨key, rfl⟩⟩
    · exact h.localEphemeral (by cases role <;> simpa [Token.announces, Role.peer] using hmem)
    · exact h.remoteStatic (by simpa [Token.announces] using hmem)
  | static key rest hrest hn =>
    refine ⟨h.localStatic, h.shared, fun hmem => ?_, fun _ => ⟨key, rfl⟩, fun hmem => ?_⟩
    · exact h.localEphemeral (by simpa [Token.announces] using hmem)
    · exact h.remoteEphemeral (by simpa [Token.announces] using hmem)
  | secret he hs hmix =>
    rw [Token.announces_secret he hs]
    exact h

/-- The counter suffices for a message that finds its keys, and so do the keys. -/
theorem run_error_supplied (h : Supplied p known role r.slots psk) (hs : r.symmetric.WellKeyed)
    (ht : ∀ t ∈ tokens, ∃ tokens ∈ p.messages, t ∈ tokens)
    (hfollow : Pattern.followable role.peer tokens known = true)
    (hn : r.symmetric.cipher.nonce.toNat + tokens.length < CipherState.reservedNonce.toNat)
    {e : Error} (herror : (r.run p role psk tokens area).result = .error e) :
    Excused (r.run p role psk tokens area).state.slots e := by
  induction tokens generalizing r known with
  | nil =>
    change (r.payload area).result = .error e at herror
    unfold payload at herror
    split at herror
    · cases herror
      exact Or.inr (Or.inl rfl)
    · exact decryptAndHash_counted (CipherState.not_exhausted hn) herror _
  | cons t ts ih =>
    simp only [Pattern.followable, Bool.and_eq_true, List.all_eq_true,
      List.contains_iff_mem] at hfollow
    obtain ⟨hin, hfollow⟩ := hfollow
    obtain ⟨htoken, hlater⟩ := List.forall_mem_cons.mp ht
    rw [List.length_cons] at hn
    rcases run_cons hs area with ⟨stop, htoken', hrun⟩ | ⟨r₁, htakes, hs₁, hrun⟩
    · rw [hrun] at herror ⊢
      cases herror
      exact token_error_supplied h htoken hin (CipherState.not_exhausted (by omega)) htoken'
    · obtain ⟨_, -, habsorbs⟩ := htakes.absorbs
      have hcount := habsorbs.nonce_le
      rw [hrun] at herror ⊢
      exact ih (htakes.supplied h) hs₁ hlater hfollow (by omega) herror

theorem run_supplied {n : Nat} (h : Supplied p known role r.slots psk) (hs : r.symmetric.WellKeyed)
    (hrun : (r.run p role psk tokens area).result = .ok n) :
    Supplied p (Pattern.announced role.peer tokens known) role
      (r.run p role psk tokens area).state.slots psk := by
  induction tokens generalizing r known with
  | nil =>
    rw [run_state_slots]
    exact h
  | cons t ts ih =>
    rcases run_cons hs area with ⟨stop, -, hcons⟩ | ⟨r₁, htakes, hs₁, hcons⟩
    · rw [hcons] at hrun
      cases hrun
    · rw [hcons] at hrun ⊢
      exact ih (htakes.supplied h) hs₁ hrun

end Reading

end Tokens

/-! ## Handshakes -/

/-- A handshake that has been started with the keys that it needs. -/
structure Provided (h : Handshake) : Prop where
  started : h.phase ≠ .initial
  supplied : h.phase = .write ∨ h.phase = .read → ∀ role, h.role = some role →
    Supplied h.pattern (h.pattern.knownBefore h.messageNumber) role h.slots h.psk

/-- As long as no key is lost, those that are used are held. -/
theorem supplied_mono {p : Pattern} {known : List (Role × Token)} {role : Role} {h h' : Handshake}
    (hkept : ∀ id, h.hasKey id = true → h'.hasKey id = true)
    (hs : Supplied p known role h.slots h.psk) : Supplied p known role h'.slots h'.psk := by
  refine ⟨fun hp => ?_, fun hp => ?_, fun hmem => ?_, fun hmem => ?_, fun hmem => ?_⟩
  · exact Option.isSome_iff_exists.mp
      (hkept .localStatic (Option.isSome_iff_exists.mpr (hs.localStatic hp)))
  · exact Option.isSome_iff_exists.mp
      (hkept .presharedKey (Option.isSome_iff_exists.mpr (hs.shared hp)))
  · exact Option.isSome_iff_exists.mp
      (hkept .localEphemeral (Option.isSome_iff_exists.mpr (hs.localEphemeral hmem)))
  · exact Option.isSome_iff_exists.mp
      (hkept .remoteStatic (Option.isSome_iff_exists.mpr (hs.remoteStatic hmem)))
  · exact Option.isSome_iff_exists.mp
      (hkept .remoteEphemeral (Option.isSome_iff_exists.mpr (hs.remoteEphemeral hmem)))

section Provided

variable {h h' : Handshake} {call : Call} {event : Event}

/-- The writer of the next message is told by the phase. -/
theorem Coherent.writer_eq (hco : Coherent h) (hdue : h.phase = .write ∨ h.phase = .read) {role : Role}
    (hrole : h.role = some role) :
    h.pattern.writer h.messageNumber = if h.phase = .write then role else role.peer := by
  have hphase := hco.phase_eq hdue hrole
  unfold phaseFor at hphase
  split at hphase
  · rename_i hwriter
    rw [if_pos hphase, hwriter]
  · rename_i hwriter
    rw [if_neg (by rw [hphase]; decide)]
    revert hwriter
    cases h.pattern.writer h.messageNumber <;> cases role <;> decide

theorem knownBefore_succ {p : Pattern} {n : Nat} {tokens : List Token}
    (htokens : p.messages[n]? = some tokens) :
    p.knownBefore (n + 1) = Pattern.announced (p.writer n) tokens (p.knownBefore n) := by
  rw [Pattern.knownBefore, List.getD_eq_getElem?_getD, htokens]
  rfl

/-- A handshake with its keys can open the message that is due. -/
theorem Provided.opens (hco : Coherent h) (hp : Provided h)
    (hdue : h.phase = .write ∨ h.phase = .read) :
    ∃ role tokens s, h.openMessage = .ok (role, tokens, s) ∧ h.role = some role ∧
      h.pattern.messages[h.messageNumber]? = some tokens := by
  obtain ⟨⟨role, hrole⟩, ⟨before, hsym⟩, -, -⟩ := hco.due hdue
  have hsupplied := hp.supplied hdue role hrole
  obtain ⟨tokens, htokens⟩ : ∃ tokens, h.nextTokens = some tokens :=
    ⟨_, List.getElem?_eq_getElem (hco.number_lt hdue)⟩
  obtain ⟨s, hstate⟩ : ∃ s, h.openingState role before = .ok s := by
    unfold openingState
    by_cases hn : h.messageNumber = 0
    · rw [if_pos hn]
      rw [hn] at hsupplied
      exact mixPremessages_supplied hsupplied before
    · rw [if_neg hn]
      exact ⟨before, rfl⟩
  refine ⟨role, tokens, s, ?_, hrole, htokens⟩
  rw [openMessage_eq, hrole, hsym]
  simp only [hstate, htokens]

/-- With the keys that a message has announced, the next one finds those that it needs. -/
theorem Provided.passed {role : Role} {tokens : List Token} {slots : KeySlots} {s : SymmetricState}
    (hrole : h.role = some role) (htokens : h.pattern.messages[h.messageNumber]? = some tokens)
    (hs : Supplied h.pattern (Pattern.announced (h.pattern.writer h.messageNumber) tokens
      (h.pattern.knownBefore h.messageNumber)) role slots h.psk) :
    Provided { h with slots, symmetric := some s }.advance := by
  refine ⟨?_, fun _ role' hrole' => ?_⟩
  · rcases phase_advance { h with slots, symmetric := some s } with hnext | hnext | hnext <;>
      rw [hnext] <;> decide
  · obtain rfl : role = role' := Option.some.inj (hrole.symm.trans hrole')
    show Supplied h.pattern (h.pattern.knownBefore (h.messageNumber + 1)) role slots h.psk
    rw [knownBefore_succ htokens]
    exact hs

theorem Provided.moves (hco : Coherent h) (hc : Counted h) (hp : Provided h)
    (hremoves : ∀ id, call ≠ .removeKey id) (hmoves : Moves h call event h') : Provided h' := by
  cases hmoves with
  | still => exact hp
  | failed hprotocol hphase hsym =>
    refine ⟨by simp [hphase], fun hdue => ?_⟩
    simp [hphase] at hdue
  | rekeyed hkept =>
    refine ⟨hp.started, fun hdue role hrole => ?_⟩
    exact supplied_mono (hkept hremoves) (hp.supplied hdue role hrole)
  | started hphase => exact absurd hphase hp.started
  | added hdue hn hsym hmix => exact ⟨hp.started, hp.supplied⟩
  | written hphase hopen hrun =>
    obtain ⟨hrole, htokens, -⟩ := openMessage_ok hopen
    have hwriter := hco.writer_eq (Or.inl hphase) hrole
    rw [if_pos hphase] at hwriter
    refine Provided.passed hrole htokens ?_
    rw [hwriter]
    exact Writing.run_supplied (hp.supplied (Or.inl hphase) _ hrole) (hc.opened hopen).1 hrun
  | read hphase hopen ho hres =>
    subst ho
    obtain ⟨hrole, htokens, -⟩ := openMessage_ok hopen
    have hwriter := hco.writer_eq (Or.inr hphase) hrole
    rw [if_neg (by rw [hphase]; decide)] at hwriter
    refine Provided.passed hrole htokens ?_
    rw [hwriter]
    exact Reading.run_supplied (hp.supplied (Or.inr hphase) _ hrole) (hc.opened hopen).1 hres
  | split hphase hsym =>
    refine ⟨by simp, fun hdue => ?_⟩
    simp at hdue

/-- The counter does not run out within a handshake. -/
theorem Counted.spare (hc : Counted h) {role : Role} {tokens : List Token} {s : SymmetricState}
    (hopen : h.openMessage = .ok (role, tokens, s)) :
    s.cipher.nonce.toNat + tokens.length < CipherState.reservedNonce.toNat := by
  obtain ⟨-, htokens, -⟩ := openMessage_ok hopen
  have hnonce := (hc.opened hopen).2
  have hlen := Pattern.length_tokens_le htokens
  have hlarge : CipherState.reservedNonce.toNat = 18446744073709551615 := rfl
  omega

/-- A call out of turn is refused for just that. -/
theorem write_out_of_turn (hne : h.phase ≠ .write) {payload area : Bytes} {entropy : Entropy}
    {e : Error} (herror : (h.write payload area entropy).1.result = .error e) :
    e = .wrongState ∨ e = .handshakeFailed := by
  have hwrites := h.writes payload area entropy
  generalize h.write payload area entropy = out at hwrites herror
  cases hwrites with
  | refused href =>
    cases herror
    exact refusal_error href
  | tooSmall hphase | unopened hphase | stopped hphase | through hphase => exact absurd hphase hne

theorem read_out_of_turn (hne : h.phase ≠ .read) {message area : Bytes} {e : Error}
    (herror : (h.read message area).result = .error e) :
    e = .wrongState ∨ e = .handshakeFailed := by
  have hreads := h.reads message area
  generalize h.read message area = out at hreads herror
  cases hreads with
  | refused href =>
    cases herror
    exact refusal_error href
  | short hphase | tooSmall hphase | unopened hphase | processed hphase => exact absurd hphase hne

/-- Writing with the required keys fails, when it is due, for want of room or for an all-zero secret
only. -/
theorem Provided.write_error (hco : Coherent h) (hc : Counted h) (hp : Provided h)
    (hphase : h.phase = .write) {payload area : Bytes} {entropy : Entropy} {e : Error}
    (herror : (h.write payload area entropy).1.result = .error e) :
    e = .bufferTooSmall ∨
      e = .badKey ∧ (h.write payload area entropy).1.state.slots.Degenerate := by
  obtain ⟨role, tokens, s, hopen, hrole, htokens⟩ := hp.opens hco (Or.inl hphase)
  have hwriter := hco.writer_eq (Or.inl hphase) hrole
  rw [if_pos hphase] at hwriter
  have hwrites := h.writes payload area entropy
  generalize h.write payload area entropy = out at hwrites herror ⊢
  cases hwrites with
  | refused href =>
    rw [refusal_self hphase] at href
    cases href
  | tooSmall =>
    cases herror
    exact Or.inl rfl
  | unopened _ _ hopen' => cases hopen.symm.trans hopen'
  | stopped _ _ hopen' hrun =>
    cases hopen.symm.trans hopen'
    cases herror
    exact Writing.run_error_supplied (hp.supplied (Or.inl hphase) role hrole) (hc.opened hopen).1
      (fun t ht => ⟨tokens, List.mem_of_getElem? htokens, ht⟩)
      (hwriter ▸ Pattern.followable_messages htokens) (hc.spare hopen) hrun
  | through => cases herror

/-- Reading with the required keys fails, when it is due, for the message, for want of room or for an
all-zero secret only. -/
theorem Provided.read_error (hco : Coherent h) (hc : Counted h) (hp : Provided h)
    (hphase : h.phase = .read) {message area : Bytes} {e : Error}
    (herror : (h.read message area).result = .error e) :
    Reading.Excused (h.read message area).state.slots e := by
  obtain ⟨role, tokens, s, hopen, hrole, htokens⟩ := hp.opens hco (Or.inr hphase)
  have hwriter := hco.writer_eq (Or.inr hphase) hrole
  rw [if_neg (by rw [hphase]; decide)] at hwriter
  have hreads := h.reads message area
  generalize h.read message area = out at hreads herror ⊢
  cases hreads with
  | refused href =>
    rw [refusal_self hphase] at href
    cases href
  | short =>
    cases herror
    exact Or.inr (Or.inl rfl)
  | tooSmall =>
    cases herror
    exact Or.inl rfl
  | unopened _ _ hopen' => cases hopen.symm.trans hopen'
  | processed _ _ hopen' hrun =>
    cases hopen.symm.trans hopen'
    dsimp only [settleRead] at herror ⊢
    split at herror
    · cases herror
    · rename_i e' hres
      cases herror
      rw [hrun] at hres ⊢
      exact Reading.run_error_supplied (hp.supplied (Or.inr hphase) role hrole)
        (hc.opened hopen).1 (fun t ht => ⟨tokens, List.mem_of_getElem? htokens, ht⟩)
        (hwriter ▸ Pattern.followable_messages htokens) (hc.spare hopen) hres

end Provided

/-! ## The start -/

/-- The initiator of IK needs the responder's static key. -/
theorem needs_remoteStatic {protocol : Protocol} (h : protocol ∈ Protocol.registry)
    (hp : protocol.pattern = .ik) : (protocol.needs .initiator).remoteStatic = true := by
  have hall : ∀ protocol ∈ Protocol.registry, protocol.pattern = .ik →
      (protocol.needs .initiator).remoteStatic = true := by
    decide
  exact hall protocol h hp

theorem known_ephemeral {p : Pattern} {owner : Role} (h : (owner, Token.e) ∈ p.knownBefore 0) :
    p = .xxFallback ∧ owner = .initiator := by
  revert h
  cases p <;> cases owner <;> decide

theorem known_static {p : Pattern} {owner : Role} (h : (owner, Token.s) ∈ p.knownBefore 0) :
    p = .ik ∧ owner = .responder := by
  revert h
  cases p <;> cases owner <;> decide

section Start

variable {h h₁ : Handshake} {role : Role} {prologue : Bytes}

/-- What is required to start is all that the first message assumes, except for the ephemeral key
that a fallback goes on with. -/
theorem supplied_start (hregistered : h.protocol ∈ Protocol.registry)
    (hephemeral : h.pattern = .xxFallback →
      (role = .initiator → ∃ pair, h.slots.localEphemeral = some pair) ∧
      (role = .responder → ∃ key, h.slots.remoteEphemeral = some key))
    (hholds : { h with slots := h.pattern.forgetStale h.slots }.holds (h.protocol.needs role) =
      true) :
    Supplied h.pattern (h.pattern.knownBefore 0) role (h.pattern.forgetStale h.slots) h.psk := by
  obtain ⟨hstatic, hpsk, -⟩ := Protocol.needs_registered hregistered role
  simp only [holds, hasKey, Bool.and_eq_true, Bool.or_eq_true, Bool.not_eq_true',
    Option.isSome_iff_exists] at hholds
  obtain ⟨⟨hlocal, hremote⟩, hshared⟩ := hholds
  refine ⟨fun hp => ?_, fun hp => ?_, fun hmem => ?_, fun hmem => ?_, fun hmem => ?_⟩
  · exact hlocal.resolve_left (by rw [hstatic hp]; decide)
  · exact hshared.resolve_left (by rw [hpsk hp]; decide)
  · obtain ⟨hp, hrole⟩ := known_ephemeral hmem
    obtain ⟨pair, hpair⟩ := (hephemeral hp).1 hrole
    rw [hp]
    exact ⟨pair, hpair⟩
  · obtain ⟨hp, hrole⟩ := known_static hmem
    obtain rfl : role = .initiator := by
      rw [← Role.peer_peer role, hrole]
      rfl
    exact hremote.resolve_left (by rw [needs_remoteStatic hregistered hp]; decide)
  · obtain ⟨hp, hrole⟩ := known_ephemeral hmem
    obtain ⟨key, hkey⟩ := (hephemeral hp).2 (by rw [← Role.peer_peer role, hrole]; rfl)
    rw [hp]
    exact ⟨key, hkey⟩

theorem provided_start (hregistered : h.protocol ∈ Protocol.registry)
    (hephemeral : h.pattern = .xxFallback →
      (role = .initiator → ∃ pair, h.slots.localEphemeral = some pair) ∧
      (role = .responder → ∃ key, h.slots.remoteEphemeral = some key))
    (hstart : h.start role prologue = (h₁, .ok ())) : Provided h₁ := by
  rcases h.start_cases role prologue with ⟨-, hholds, heq⟩ | ⟨h', e, heq, -⟩
  · obtain rfl : h.started role prologue = h₁ := congrArg Prod.fst (heq.symm.trans hstart)
    refine ⟨?_, fun _ role' hrole' => ?_⟩
    · intro hphase
      rcases phaseFor_due h.pattern role 0 with hp | hp <;> cases hp.symm.trans hphase
    · obtain rfl : role = role' := Option.some.inj hrole'
      exact supplied_start hregistered hephemeral hholds
  · cases congrArg Prod.snd (heq.symm.trans hstart)

theorem provided_startFallback {attempt : Handshake} (hregistered : h.protocol ∈ Protocol.registry)
    (hstart : h.startFallback attempt role prologue = (h₁, .ok ())) : Provided h₁ := by
  rcases h.startFallback_cases attempt role prologue with
    ⟨slots, hpattern, -, htake, heq⟩ | ⟨h', e, heq, -⟩
  · refine provided_start (h := { h with slots }) hregistered (fun _ => ⟨?_, ?_⟩)
      (heq.symm.trans hstart)
    · rintro rfl
      simp only [KeySlots.takeOver] at htake
      split at htake
      · cases htake
        exact ⟨_, rfl⟩
      · cases htake
    · rintro rfl
      simp only [KeySlots.takeOver] at htake
      split at htake
      · cases htake
        exact ⟨_, rfl⟩
      · cases htake
  · cases congrArg Prod.snd (heq.symm.trans hstart)

end Start

/-- A handshake has the keys that it needs once it has been started, after whatever calls. -/
theorem provided_started {protocol : Protocol} (hregistered : protocol ∈ Protocol.registry)
    {before : List Call} {role : Role} {prologue : Bytes} {h₁ : Handshake}
    (hstart : protocol.pattern.isFallback = false ∧
        ((new protocol).afterAll before).start role prologue = (h₁, .ok ()) ∨
      ∃ attempt,
        ((new protocol).afterAll before).startFallback attempt role prologue = (h₁, .ok ())) :
    Coherent h₁ ∧ Counted h₁ ∧ Provided h₁ := by
  have hco := coherent_afterAll (coherent_new protocol) before
  have hc := counted_afterAll protocol before
  have hregistered₀ : ((new protocol).afterAll before).protocol ∈ Protocol.registry := by
    rw [protocol_afterAll]
    exact hregistered
  rcases hstart with ⟨hfresh, hstart⟩ | ⟨attempt, hstart⟩
  · have hafter : ((new protocol).afterAll before).after (.start role prologue) = h₁ :=
      congrArg Prod.fst hstart
    refine ⟨hafter ▸ coherent_after hco _, hafter ▸ hc.moves (moves _ _),
      provided_start hregistered₀ (fun hp => ?_) hstart⟩
    rw [pattern, protocol_afterAll] at hp
    have hfallback : protocol.pattern = .xxFallback := hp
    rw [hfallback] at hfresh
    cases hfresh
  · have hafter : ((new protocol).afterAll before).after (.startFallback attempt role prologue) =
        h₁ := congrArg Prod.fst hstart
    exact ⟨hafter ▸ coherent_after hco _, hafter ▸ hc.moves (moves _ _),
      provided_startFallback hregistered₀ hstart⟩

theorem provided_afterAll {h : Handshake} (hco : Coherent h) (hc : Counted h) (hp : Provided h)
    {calls : List Call} (hremoves : ∀ id, .removeKey id ∉ calls) :
    Coherent (h.afterAll calls) ∧ Counted (h.afterAll calls) ∧ Provided (h.afterAll calls) := by
  refine afterAll_keeps (P := fun h => Coherent h ∧ Counted h ∧ Provided h)
    (Q := fun call => ∀ id, call ≠ .removeKey id) ?_ ?_ ⟨hco, hc, hp⟩
  · rintro h call hkept ⟨hco, hc, hp⟩
    have hmoves := h.moves call
    exact ⟨coherent_after hco call, hc.moves hmoves, hp.moves hco hc hkept hmoves⟩
  · rintro call hcall id rfl
    exact hremoves id hcall

/-- The keys that a protocol requires suffice. Let a handshake of a registered protocol be started,
after whatever calls and in either role; one of XXfallback by falling back. As long as no key is
removed, whatever other calls are made, writing and reading never fail for a missing key or for the
counter. When it is due, writing fails only for want of room or because keys that the handshake holds
agree on the all-zero secret, and reading only for these reasons or for the message. -/
theorem required_keys_suffice {protocol : Protocol} (hregistered : protocol ∈ Protocol.registry)
    {before calls : List Call} {role : Role} {prologue : Bytes} {h₁ : Handshake}
    (hstart : protocol.pattern.isFallback = false ∧
        ((new protocol).afterAll before).start role prologue = (h₁, .ok ()) ∨
      ∃ attempt,
        ((new protocol).afterAll before).startFallback attempt role prologue = (h₁, .ok ()))
    (hremoves : ∀ id, .removeKey id ∉ calls) :
    let h := h₁.afterAll calls
    (∀ payload area entropy e, (h.write payload area entropy).1.result = .error e →
      e ≠ .missingKey ∧ e ≠ .nonceExhausted ∧
        (h.phase = .write → e = .bufferTooSmall ∨
          e = .badKey ∧ (h.write payload area entropy).1.state.slots.Degenerate)) ∧
    ∀ message area e, (h.read message area).result = .error e →
      e ≠ .missingKey ∧ e ≠ .nonceExhausted ∧
        (h.phase = .read → e = .bufferTooSmall ∨ e = .badMessage ∨ e = .cryptoFailed ∨
          e = .badKey ∧ (h.read message area).state.slots.Degenerate) := by
  intro h
  obtain ⟨hco₁, hc₁, hp₁⟩ := provided_started hregistered hstart
  obtain ⟨hco, hc, hp⟩ := provided_afterAll hco₁ hc₁ hp₁ hremoves
  refine ⟨fun payload area entropy e herror => ?_, fun message area e herror => ?_⟩
  · by_cases hphase : h.phase = .write
    · have hwhy := hp.write_error hco hc hphase herror
      refine ⟨?_, ?_, fun _ => hwhy⟩ <;> rcases hwhy with rfl | ⟨rfl, -⟩ <;> decide
    · have hwhy := write_out_of_turn hphase herror
      refine ⟨?_, ?_, fun hdue => absurd hdue hphase⟩ <;> rcases hwhy with rfl | rfl <;> decide
  · by_cases hphase : h.phase = .read
    · have hwhy := hp.read_error hco hc hphase herror
      refine ⟨?_, ?_, fun _ => hwhy⟩ <;> rcases hwhy with rfl | rfl | rfl | ⟨rfl, -⟩ <;> decide
    · have hwhy := read_out_of_turn hphase herror
      refine ⟨?_, ?_, fun hdue => absurd hdue hphase⟩ <;> rcases hwhy with rfl | rfl <;> decide

/-- A responder in IK with all that it needs is sent an ephemeral key of order one. -/
theorem required_keys_suffice_ik :
    let fresh := (new .ikChaChaPolyBlake2s).afterAll [.setLocalPrivateKey (Bytes.zeros 32)]
    let h := (fresh.start .responder [1]).1.afterAll [.addPrologue [2]]
    (h.read (Bytes.zeros 96) []).result = .error .badKey ∧
      (h.read (Bytes.zeros 96) []).state.slots.Degenerate := by
  intro fresh h
  have hstart : fresh.start .responder [1] = ((fresh.start .responder [1]).1, .ok ()) := rfl
  have hregistered : .ikChaChaPolyBlake2s ∈ Protocol.registry := by decide
  have hremoves : ∀ id, .removeKey id ∉ [Call.addPrologue [2]] := by simp
  have hread : h.phase = .read ∧ (h.read (Bytes.zeros 96) []).result = .error .badKey := by
    decide +kernel
  have hsuffice : ∀ message area e, (h.read message area).result = .error e →
      e ≠ .missingKey ∧ e ≠ .nonceExhausted ∧
        (h.phase = .read → e = .bufferTooSmall ∨ e = .badMessage ∨ e = .cryptoFailed ∨
          e = .badKey ∧ (h.read message area).state.slots.Degenerate) :=
    (required_keys_suffice hregistered (Or.inl ⟨rfl, hstart⟩) hremoves).2
  clear_value h
  obtain ⟨hphase, hresult⟩ := hread
  obtain ⟨-, -, hwhy⟩ := hsuffice (Bytes.zeros 96) [] .badKey hresult
  refine ⟨hresult, ?_⟩
  rcases hwhy hphase with he | he | he | ⟨-, hdegenerate⟩
  · cases he
  · cases he
  · cases he
  · exact hdegenerate

end Handshake

end NoiseChannel
