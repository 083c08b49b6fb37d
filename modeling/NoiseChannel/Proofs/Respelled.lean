import NoiseChannel.Proofs.Moves

/-!
# Messages spelled out again

`spelling` puts a message together from the keys and the payload that it reveals, field by field in
the order of the tokens, each in the reader's own state at that point. A message that has been read
is what comes out (`Reading.run_respelled`, by induction on its tokens: the state that a field is
spelled in depends on the fields before it). There is no second message with the same meaning.
-/

namespace NoiseChannel

/-- The bytes that stand for `plaintext` in a message, with the state after them, or why there are
none. They are encrypted into an area of just their size. -/
def SymmetricState.encrypted (s : SymmetricState) (plaintext : Bytes) :
    Except Error (Bytes × SymmetricState) :=
  let o := s.encryptAndHash plaintext (Bytes.zeros (plaintext.length + s.overhead))
  o.written.map fun ciphertext => (ciphertext, o.state)

theorem SymmetricState.encrypted_eq {s : SymmetricState} (hs : s.WellKeyed)
    (hn : ¬ s.cipher.Exhausted) (plaintext : Bytes) :
    s.encrypted plaintext = .ok (s.ciphertext plaintext, s.passed (s.ciphertext plaintext)) := by
  have hroom : plaintext.length + s.overhead ≤
      (Bytes.zeros (plaintext.length + s.overhead)).length :=
    Nat.le_of_eq (Bytes.length_zeros _).symm
  simp only [encrypted, encryptAndHash_ok hs hn hroom, Outcome.written, Except.map,
    List.take_left' (length_ciphertext hs plaintext)]

namespace Handshake

/-! ## Spelling -/

section Spelling

variable (p : Pattern) (role : Role) (psk : Option PresharedKey)

/-- The field of a token in a message that reveals the given ephemeral and static key, as a reader
spells it that holds `slots` and `s`; and what that reader holds next. -/
def spellingOf (ephemeral static : Option PublicKey) (slots : KeySlots) (s : SymmetricState) :
    Token → Except Error (Bytes × KeySlots × SymmetricState)
  | .e =>
    match ephemeral with
    | some key => .ok (key.bytes, slots.setRemoteEphemeral key, mixPublic p s .e key.bytes)
    | none => .error .missingKey
  | .s =>
    match static with
    | some key =>
      (s.encrypted key.bytes).map fun (field, s) => (field, slots.setRemoteStatic key, s)
    | none => .error .missingKey
  | t => (mixSecret slots psk role s t).map fun s => ([], slots, s)

/-- The message with the given tokens that reveals the given keys and payload, as a reader spells it
that holds `slots` and `s`; and the symmetric state of that reader in the end. -/
def spelling (ephemeral static : Option PublicKey) (payload : Bytes) :
    List Token → KeySlots → SymmetricState → Except Error (Bytes × SymmetricState)
  | [], _, s => s.encrypted payload
  | t :: tokens, slots, s =>
    match spellingOf p role psk ephemeral static slots s t with
    | .error e => .error e
    | .ok (field, slots, s) =>
      (spelling ephemeral static payload tokens slots s).map fun (rest, s) => (field ++ rest, s)

end Spelling

/-- The next message, if it reveals the given keys and payload, with the symmetric state that it
leaves. -/
def respelled (h : Handshake) (ephemeral static : Option PublicKey) (payload : Bytes) :
    Except Error (Bytes × SymmetricState) :=
  match h.openMessage with
  | .error e => .error e
  | .ok (role, tokens, s) =>
    spelling h.pattern role h.psk ephemeral static payload tokens h.slots s

/-! ## What reading reveals -/

namespace Reading

variable {p : Pattern} {role : Role} {psk : Option PresharedKey} {t : Token} {tokens : List Token}
  {r r' : Reading} {area : Bytes} {n : Nat}

theorem reached_token_remoteStatic (hs : t ≠ .s) (p : Pattern) (role : Role)
    (psk : Option PresharedKey) (r : Reading) :
    (reached (token p role psk r t)).slots.remoteStatic = r.slots.remoteStatic := by
  by_cases he : t = .e
  · subst he
    rw [token_e]
    split <;> rfl
  · rw [token_secret he hs]
    split <;> rfl

theorem run_remoteEphemeral (he : .e ∉ tokens) :
    (r.run p role psk tokens area).state.slots.remoteEphemeral = r.slots.remoteEphemeral := by
  rw [run_state_slots]
  exact reached_foldlM (fun r : Reading => r.slots.remoteEphemeral)
    (fun t ht r => reached_token_remoteEphemeral (fun heq => he (heq ▸ ht)) p role psk r) r

theorem run_remoteStatic (hs : .s ∉ tokens) :
    (r.run p role psk tokens area).state.slots.remoteStatic = r.slots.remoteStatic := by
  rw [run_state_slots]
  exact reached_foldlM (fun r : Reading => r.slots.remoteStatic)
    (fun t ht r => reached_token_remoteStatic (fun heq => hs (heq ▸ ht)) p role psk r) r

/-- A token that has been read is spelled as it was. -/
theorem Takes.spelled {ephemeral static : Option PublicKey} (hs : r.symmetric.WellKeyed)
    (h : Takes p role psk r t r') (he : t = .e → ephemeral = r'.slots.remoteEphemeral)
    (hstatic : t = .s → static = r'.slots.remoteStatic) :
    ∃ field, r.rest = field ++ r'.rest ∧
      spellingOf p role psk ephemeral static r.slots r.symmetric t =
        .ok (field, r'.slots, r'.symmetric) := by
  cases h with
  | ephemeral key rest hrest =>
    rw [he rfl]
    exact ⟨_, hrest, rfl⟩
  | static key rest hrest hn =>
    have hkey : static = some key := hstatic rfl
    have hstep : spellingOf p role psk ephemeral (some key) r.slots r.symmetric .s =
        (r.symmetric.encrypted key.bytes).map fun (field, s) =>
          (field, r.slots.setRemoteStatic key, s) := rfl
    refine ⟨_, hrest, ?_⟩
    rw [hkey, hstep, SymmetricState.encrypted_eq hs hn]
    rfl
  | @secret t s hne hns hmix =>
    refine ⟨[], rfl, ?_⟩
    have hstep : spellingOf p role psk ephemeral static r.slots r.symmetric t =
        (mixSecret r.slots psk role r.symmetric t).map fun s => ([], r.slots, s) := by
      cases t <;> first | rfl | contradiction
    rw [hstep, hmix]
    rfl

/-- A message without a token twice that has been read is spelled as it was, from the keys and the
payload that it has revealed. -/
theorem run_respelled (hnodup : tokens.Nodup) (hs : r.symmetric.WellKeyed)
    (h : (r.run p role psk tokens area).result = .ok n) :
    spelling p role psk (r.run p role psk tokens area).state.slots.remoteEphemeral
        (r.run p role psk tokens area).state.slots.remoteStatic
        ((r.run p role psk tokens area).area.take n) tokens r.slots r.symmetric =
      .ok (r.rest, (r.run p role psk tokens area).state.symmetric) := by
  induction tokens generalizing r with
  | nil =>
    have hrun : r.run p role psk [] area = r.payload area := rfl
    rw [hrun] at h ⊢
    obtain ⟨plaintext, hrest, hn, harea, hstate⟩ := payload_ok hs h
    rw [spelling, harea, hstate, hrest]
    exact SymmetricState.encrypted_eq hs hn plaintext
  | cons t ts ih =>
    obtain ⟨hnot, hrest⟩ := List.nodup_cons.mp hnodup
    rcases run_cons hs area with ⟨stop, -, hrun⟩ | ⟨r', htakes, hs', hrun⟩
    · rw [hrun] at h
      cases h
    · rw [hrun] at h ⊢
      -- what this token reveals is not overwritten by a later one
      obtain ⟨field, hfield, hspelled⟩ := htakes.spelled hs
        (fun he => run_remoteEphemeral (he ▸ hnot)) (fun hst => run_remoteStatic (hst ▸ hnot))
      rw [spelling, hspelled]
      dsimp only
      rw [ih hrest hs' h, hfield]
      rfl

end Reading

/-! ## Reachable handshakes -/

theorem Pattern.nodup_tokens {p : Pattern} {n : Nat} {tokens : List Token}
    (h : p.messages[n]? = some tokens) : tokens.Nodup := by
  have hall : ∀ ts ∈ p.messages, ts.Nodup := by
    cases p <;> decide
  exact hall tokens (List.mem_of_getElem? h)

/-- A message that has been read is spelled as it was. -/
theorem Counted.respelled {h : Handshake} (hc : Counted h) {message area payload : Bytes}
    (hread : (h.read message area).written = .ok payload) :
    ∃ s, (h.read message area).state.symmetric = some s ∧
      h.respelled (h.read message area).state.slots.remoteEphemeral
        (h.read message area).state.slots.remoteStatic payload = .ok (message, s) := by
  obtain ⟨n, hres, hpayload⟩ := map_ok hread
  obtain ⟨-, role, tokens, s, hopen, hrun, heq⟩ := read_ok hres
  obtain ⟨-, htokens, -⟩ := openMessage_ok hopen
  rw [heq, settleRead, hrun] at hpayload ⊢
  refine ⟨_, rfl, ?_⟩
  rw [Handshake.respelled, hopen, ← hpayload]
  exact Reading.run_respelled (Pattern.nodup_tokens htokens) (hc.opened hopen).1 hrun

/-- Messages have one spelling. Whatever calls have been made on a handshake, a message that it reads
is the concatenation, in the order of the tokens, of the ephemeral key that it reveals, of the
static key that it reveals, encrypted, and of its payload, encrypted, each in the state that the
handshake has reached there, and it leaves the state that this spelling leaves. Two messages that
reveal the same payload and the same keys are the same message, whatever areas they were read to. -/
theorem reading_has_one_spelling (protocol : Protocol) (calls : List Call) :
    let h := (new protocol).afterAll calls
    (∀ message area payload, (h.read message area).written = .ok payload →
      ∃ s, (h.read message area).state.symmetric = some s ∧
        h.respelled (h.read message area).state.slots.remoteEphemeral
          (h.read message area).state.slots.remoteStatic payload = .ok (message, s)) ∧
    ∀ m₁ a₁ m₂ a₂ payload, (h.read m₁ a₁).written = .ok payload →
      (h.read m₂ a₂).written = .ok payload →
      (h.read m₁ a₁).state.slots.remoteEphemeral = (h.read m₂ a₂).state.slots.remoteEphemeral →
      (h.read m₁ a₁).state.slots.remoteStatic = (h.read m₂ a₂).state.slots.remoteStatic →
      m₁ = m₂ := by
  intro h
  have hc : Counted h := counted_afterAll protocol calls
  refine ⟨fun message area payload hread => hc.respelled hread, ?_⟩
  intro m₁ a₁ m₂ a₂ payload h₁ h₂ hephemeral hstatic
  obtain ⟨s₁, -, hspelled₁⟩ := hc.respelled h₁
  obtain ⟨s₂, -, hspelled₂⟩ := hc.respelled h₂
  -- what they reveal is the same, and so is its spelling
  rw [hephemeral, hstatic, hspelled₂] at hspelled₁
  exact (congrArg Prod.fst (Except.ok.inj hspelled₁)).symm

/-- A message of an ephemeral key and two bytes of payload, encrypted. -/
theorem reading_has_one_spelling_nnPsk0 :
    let calls : List Call := [.setPresharedKey (Bytes.zeros 32), .start .responder [1]]
    let h := (new .nnPsk0ChaChaPolyBlake2s).afterAll calls
    let message : Bytes := [
      47, 229, 125, 163, 71, 205, 98, 67, 21, 40, 218, 172, 95, 187, 41, 7, 48, 255, 246, 132, 175,
      196, 207, 194, 237, 144, 153, 95, 88, 203, 59, 116, 217, 25, 19, 255, 56, 196, 137, 217, 175,
      92, 33, 93, 220, 108, 127, 251, 15, 75]
    (h.read message [0, 0]).written = .ok [5, 6] ∧
      ∃ s, h.respelled (h.read message [0, 0]).state.slots.remoteEphemeral none [5, 6] =
        .ok (message, s) := by
  intro calls h message
  have hread : (h.read message [0, 0]).written = .ok [5, 6] ∧
      (h.read message [0, 0]).state.slots.remoteStatic = none := by
    decide +kernel
  obtain ⟨hread, hstatic⟩ := hread
  have hspells : ∀ message area payload, (h.read message area).written = .ok payload →
      ∃ s, (h.read message area).state.symmetric = some s ∧
        h.respelled (h.read message area).state.slots.remoteEphemeral
          (h.read message area).state.slots.remoteStatic payload = .ok (message, s) :=
    (reading_has_one_spelling .nnPsk0ChaChaPolyBlake2s calls).1
  clear_value message h
  obtain ⟨s, -, hspelled⟩ := hspells message [0, 0] [5, 6] hread
  rw [hstatic] at hspelled
  exact ⟨hread, s, hspelled⟩

end Handshake

end NoiseChannel
