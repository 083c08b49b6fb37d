import NoiseChannel.Proofs.MessageErrors

/-!
# Writer and reader in lockstep

One party writes a message, the other reads it. Token by token they mix the same bytes and the same
secrets into the same symmetric state, provided that they know enough of each other's keys. What has
been announced so far is kept in a list, `Pattern.knownBefore`; that every secret is made from keys
announced before it is checked once for the four patterns (`followable_messages`). `Abreast` is what
a token preserves (`token_abreast`); `tokens_abreast` carries it through the tokens of a message,
and `message_abreast` through its payload.
-/

namespace NoiseChannel

/-! ## Key agreement -/

/-- What key agreement is relied on for: two parties arrive at the same secret, and it is not the
all-zero one. -/
structure KeyPair.Agrees (a b : KeyPair) : Prop where
  /-- Both orders give the same bytes. -/
  commutes : Curve25519.scalarMult a.secret.bytes b.publicKey.bytes =
    Curve25519.scalarMult b.secret.bytes a.publicKey.bytes
  /-- They are not all zero. -/
  nonzero : Curve25519.scalarMult a.secret.bytes b.publicKey.bytes ≠ Bytes.zeros 32

instance (a b : KeyPair) : Decidable (a.Agrees b) :=
  decidable_of_iff _ ⟨fun h => ⟨h.1, h.2⟩, fun h => (⟨h.commutes, h.nonzero⟩ : _ ∧ _)⟩

theorem KeyPair.Agrees.agree {a b : KeyPair} (h : a.Agrees b) :
    ∃ secret, a.secret.agree b.publicKey = .ok secret ∧
      b.secret.agree a.publicKey = .ok secret := by
  have hzero : Curve25519.scalarMult b.secret.bytes a.publicKey.bytes ≠ Bytes.zeros 32 := by
    rw [← h.commutes]
    exact h.nonzero
  refine ⟨⟨Curve25519.scalarMult a.secret.bytes b.publicKey.bytes⟩, ?_, ?_⟩
  · simp only [SecretKey.agree, h.nonzero, if_false]
  · simp only [SecretKey.agree, hzero, if_false, h.commutes]

/-! ## What the parties know of each other -/

namespace Token

/-- The keys that a token of the party in `role` announces to its peer. -/
def announces (role : Role) : Token → List (Role × Token)
  | .e => [(role, .e)]
  | .s => [(role, .s)]
  | .ee | .es | .se | .ss | .psk => []

theorem announces_secret {t : Token} (he : t ≠ .e) (hs : t ≠ .s) (role : Role) :
    t.announces role = [] := by
  cases t <;> first | rfl | contradiction

/-- The keys that the secret of a token is made from. -/
def ingredients : Token → List (Role × Token)
  | .ee => [(.initiator, .e), (.responder, .e)]
  | .es => [(.initiator, .e), (.responder, .s)]
  | .se => [(.initiator, .s), (.responder, .e)]
  | .ss => [(.initiator, .s), (.responder, .s)]
  | .e | .s | .psk => []

/-- Whether a token has to do with static keys. -/
def usesStatic : Token → Bool
  | .s | .es | .se | .ss => true
  | .e | .ee | .psk => false

end Token

namespace Pattern

/-- Whether static keys occur in the messages of a pattern. -/
def usesStatics (p : Pattern) : Bool := p.messages.any fun tokens => tokens.any Token.usesStatic

theorem usesStatics_of_mem {p : Pattern} {t : Token} (ht : ∃ tokens ∈ p.messages, t ∈ tokens)
    (huse : t.usesStatic = true) : p.usesStatics = true := by
  obtain ⟨tokens, htokens, hmem⟩ := ht
  simp only [usesStatics, List.any_eq_true]
  exact ⟨tokens, htokens, t, hmem, huse⟩

theorem usesPsk_of_mem {p : Pattern} (ht : ∃ tokens ∈ p.messages, .psk ∈ tokens) :
    p.usesPsk = true := by
  obtain ⟨tokens, htokens, hmem⟩ := ht
  simp only [usesPsk, List.any_eq_true, List.contains_iff_mem]
  exact ⟨tokens, htokens, hmem⟩

/-- The keys announced once the party in `role` has sent `tokens`. -/
def announced (role : Role) (tokens : List Token) (known : List (Role × Token)) :
    List (Role × Token) :=
  tokens.foldl (fun known t => t.announces role ++ known) known

/-- The keys announced before message `n`. -/
def knownBefore (p : Pattern) : Nat → List (Role × Token)
  | 0 => Role.all.flatMap fun owner => (p.premessage owner).map fun t => (owner, t)
  | n + 1 => announced (p.writer n) (p.messages.getD n []) (p.knownBefore n)

/-- Whether each of the `tokens` that the party in `role` sends finds the keys announced that it
needs. -/
def followable (role : Role) : List Token → List (Role × Token) → Bool
  | [], _ => true
  | t :: ts, known =>
    (t.ingredients.all fun key => known.contains key) &&
      followable role ts (t.announces role ++ known)

/-- No message of any pattern uses a key before it is known. -/
theorem followable_messages {p : Pattern} {n : Nat} {tokens : List Token}
    (h : p.messages[n]? = some tokens) :
    followable (p.writer n) tokens (p.knownBefore n) = true := by
  have hall : ∀ m < p.messages.length, ∀ ts ∈ p.messages[m]?,
      followable (p.writer m) ts (p.knownBefore m) = true := by
    cases p <;> decide
  have hn : n < p.messages.length := (List.getElem?_eq_some_iff.mp h).1
  exact hall n hn tokens h

theorem length_tokens_le {p : Pattern} {n : Nat} {tokens : List Token}
    (h : p.messages[n]? = some tokens) : tokens.length < 8 ∧ n < 3 := by
  have hall : p.messages.length ≤ 3 ∧ ∀ ts ∈ p.messages, ts.length < 8 := by
    cases p <;> decide
  have hn := (List.getElem?_eq_some_iff.mp h).1
  exact ⟨hall.2 tokens (List.mem_of_getElem? h), by omega⟩

end Pattern

/-- The Curve25519 pairs of the two parties of a session. -/
structure Keys where
  /-- The long-term pair of a party, if it has one. -/
  static : Role → Option KeyPair
  /-- The pair of a party for this session. -/
  ephemeral : Role → KeyPair

/-- The pairs of a session, each party's static pair before the ephemeral ones. -/
def Keys.of (staticI staticR : Option KeyPair) (ephemeralI ephemeralR : KeyPair) : Keys where
  static
    | .initiator => staticI
    | .responder => staticR
  ephemeral
    | .initiator => ephemeralI
    | .responder => ephemeralR

/-- The pairs of one party. -/
def Keys.pairs (k : Keys) (role : Role) : List KeyPair :=
  k.ephemeral role :: (k.static role).toList

/-- The slots of the party in `role` hold its own keys, and those of its peer that are `known`. -/
structure Holds (k : Keys) (known : List (Role × Token)) (role : Role) (slots : KeySlots) :
    Prop where
  /-- Its static pair is there from the beginning, -/
  localStatic : slots.localStatic = k.static role
  /-- its ephemeral pair once it has been announced; -/
  localEphemeral : slots.localEphemeral =
    if (role, Token.e) ∈ known then some (k.ephemeral role) else none
  /-- the peer's static key as soon as it is known, -/
  remoteStatic : (role.peer, Token.s) ∈ known →
    slots.remoteStatic = (k.static role.peer).map KeyPair.publicKey
  /-- and so the peer's ephemeral key. -/
  remoteEphemeral : (role.peer, Token.e) ∈ known →
    slots.remoteEphemeral = some (k.ephemeral role.peer).publicKey

/-- What the parties of a session bring along, whatever is said in it: static keys and one
pre-shared key where the pattern uses them, and pairs that agree. -/
structure Equipped (k : Keys) (p : Pattern) (psk : Role → Option PresharedKey) : Prop where
  /-- There are static pairs. -/
  statics : p.usesStatics = true → ∀ role, ∃ pair, k.static role = some pair
  /-- There is one pre-shared key. -/
  shared : p.usesPsk = true → ∃ key, ∀ role, psk role = some key
  /-- Every pair of the one agrees with every pair of the other. -/
  agrees : ∀ a ∈ k.pairs .initiator, ∀ b ∈ k.pairs .responder, a.Agrees b

namespace Holds

variable {k : Keys} {known : List (Role × Token)} {role : Role} {slots : KeySlots}

/-- An ephemeral pair is announced: its owner keeps it. -/
theorem announce_e (h : Holds k known role slots) :
    Holds k ((role, .e) :: known) role
      { slots with localEphemeral := some (k.ephemeral role) } := by
  refine ⟨h.localStatic, by simp, ?_, ?_⟩
  · intro hmem
    exact h.remoteStatic (by simpa using hmem)
  · intro hmem
    exact h.remoteEphemeral (by cases role <;> simpa [Role.peer] using hmem)

/-- A static pair is announced: its owner has it already. -/
theorem announce_s (h : Holds k known role slots) : Holds k ((role, .s) :: known) role slots := by
  refine ⟨h.localStatic, by simpa using h.localEphemeral, ?_, ?_⟩
  · intro hmem
    exact h.remoteStatic (by cases role <;> simpa [Role.peer] using hmem)
  · intro hmem
    exact h.remoteEphemeral (by simpa using hmem)

/-- The peer's ephemeral key is learned. -/
theorem learn_e (h : Holds k known role.peer slots) :
    Holds k ((role, .e) :: known) role.peer
      (slots.setRemoteEphemeral (k.ephemeral role).publicKey) := by
  refine ⟨h.localStatic, ?_, ?_, fun _ => by rw [Role.peer_peer]; rfl⟩
  · have hown : (role.peer, Token.e) ∈ (role, Token.e) :: known ↔
        (role.peer, Token.e) ∈ known := by
      cases role <;> simp [Role.peer]
    simp only [hown]
    exact h.localEphemeral
  · intro hmem
    exact h.remoteStatic (by simpa using hmem)

/-- The peer's static key is learned. -/
theorem learn_s (h : Holds k known role.peer slots) {pair : KeyPair}
    (hpair : k.static role = some pair) :
    Holds k ((role, .s) :: known) role.peer (slots.setRemoteStatic pair.publicKey) := by
  refine ⟨h.localStatic, ?_, fun _ => ?_, ?_⟩
  · have hown : (role.peer, Token.e) ∈ (role, Token.s) :: known ↔
        (role.peer, Token.e) ∈ known := by
      simp
    simp only [hown]
    exact h.localEphemeral
  · rw [Role.peer_peer, hpair]
    rfl
  · intro hmem
    exact h.remoteEphemeral (by simpa using hmem)

theorem ephemeral (h : Holds k known role slots) (hknown : (role, Token.e) ∈ known) :
    slots.localEphemeral = some (k.ephemeral role) := by
  rw [h.localEphemeral, if_pos hknown]

/-- The pair that an ephemeral token announces is the one of the session, be it made for this token
or kept since before. -/
theorem generate (h : Holds k known role slots) {entropy : Entropy}
    (hfresh : (role, Token.e) ∈ known ∨ (KeyPair.generate entropy).1 = k.ephemeral role) :
    ∃ left, slots.generateLocalEphemeral entropy =
      ((k.ephemeral role).publicKey, { slots with localEphemeral := some (k.ephemeral role) },
        left) := by
  obtain ⟨pair, left, hpair, hmade⟩ := Handshake.generateLocalEphemeral_eq slots entropy
  have hours : pair = k.ephemeral role := by
    rw [hpair, h.localEphemeral]
    by_cases hknown : (role, Token.e) ∈ known
    · rw [if_pos hknown]
      rfl
    · rw [if_neg hknown]
      exact hfresh.resolve_left hknown
  rw [hours] at hmade
  exact ⟨left, hmade⟩

end Holds

namespace Handshake

/-! ## Secrets -/

section Secrets

variable {k : Keys} {known : List (Role × Token)} {p : Pattern} {psk : Role → Option PresharedKey}
  {t : Token}

/-- The initiator and the responder mix the same secret. -/
theorem mixSecret_both (hq : Equipped k p psk) (ht : ∃ tokens ∈ p.messages, t ∈ tokens)
    (he : t ≠ .e) (hs : t ≠ .s) (hin : ∀ key ∈ t.ingredients, key ∈ known) {mine yours : KeySlots}
    (hI : Holds k known .initiator mine) (hR : Holds k known .responder yours)
    (s : SymmetricState) :
    ∃ s', mixSecret mine (psk .initiator) .initiator s t = .ok s' ∧
      mixSecret yours (psk .responder) .responder s t = .ok s' := by
  have key : ∀ a ∈ k.pairs .initiator, ∀ b ∈ k.pairs .responder,
      ∃ s', ((KeySlots.agree (some a) (some b.publicKey)).map fun secret =>
          s.mixKey secret.bytes) = .ok s' ∧
        ((KeySlots.agree (some b) (some a.publicKey)).map fun secret =>
          s.mixKey secret.bytes) = .ok s' := by
    intro a ha b hb
    obtain ⟨secret, hab, hba⟩ := (hq.agrees a ha b hb).agree
    exact ⟨s.mixKey secret.bytes, by simp only [KeySlots.agree, hab]; rfl,
      by simp only [KeySlots.agree, hba]; rfl⟩
  have hstatic : t.usesStatic = true → ∀ role, ∃ pair, k.static role = some pair :=
    fun huse => hq.statics (Pattern.usesStatics_of_mem ht huse)
  cases t with
  | e => exact absurd rfl he
  | s => exact absurd rfl hs
  | ee =>
    have hmine := hI.ephemeral (hin (.initiator, .e) (by decide))
    have htheirs := hI.remoteEphemeral (hin (.responder, .e) (by decide))
    have hyours := hR.ephemeral (hin (.responder, .e) (by decide))
    have hours := hR.remoteEphemeral (hin (.initiator, .e) (by decide))
    simp only [mixSecret, KeySlots.ee, hmine, htheirs, hyours, hours]
    exact key _ (List.mem_cons_self ..) _ (List.mem_cons_self ..)
  | es =>
    obtain ⟨b, hb⟩ := hstatic rfl .responder
    have hmine := hI.ephemeral (hin (.initiator, .e) (by decide))
    have htheirs := hI.remoteStatic (hin (.responder, .s) (by decide))
    have hyours := hR.localStatic
    have hours := hR.remoteEphemeral (hin (.initiator, .e) (by decide))
    rw [Role.peer, hb] at htheirs
    rw [hb] at hyours
    simp only [mixSecret, KeySlots.es, hmine, htheirs, hyours, hours, Option.map_some]
    exact key _ (List.mem_cons_self ..) b (by simp [Keys.pairs, hb])
  | se =>
    obtain ⟨a, ha⟩ := hstatic rfl .initiator
    have hmine := hI.localStatic
    have htheirs := hI.remoteEphemeral (hin (.responder, .e) (by decide))
    have hyours := hR.ephemeral (hin (.responder, .e) (by decide))
    have hours := hR.remoteStatic (hin (.initiator, .s) (by decide))
    rw [ha] at hmine
    rw [Role.peer, ha] at hours
    simp only [mixSecret, KeySlots.se, hmine, htheirs, hyours, hours, Option.map_some]
    exact key a (by simp [Keys.pairs, ha]) _ (List.mem_cons_self ..)
  | ss =>
    obtain ⟨a, ha⟩ := hstatic rfl .initiator
    obtain ⟨b, hb⟩ := hstatic rfl .responder
    have hmine := hI.localStatic
    have htheirs := hI.remoteStatic (hin (.responder, .s) (by decide))
    have hyours := hR.localStatic
    have hours := hR.remoteStatic (hin (.initiator, .s) (by decide))
    rw [ha] at hmine
    rw [hb] at hyours
    rw [Role.peer, hb] at htheirs
    rw [Role.peer, ha] at hours
    simp only [mixSecret, KeySlots.ss, hmine, htheirs, hyours, hours, Option.map_some]
    exact key a (by simp [Keys.pairs, ha]) b (by simp [Keys.pairs, hb])
  | psk =>
    obtain ⟨shared, hshared⟩ := hq.shared (Pattern.usesPsk_of_mem ht)
    simp only [mixSecret, hshared]
    exact ⟨_, rfl, rfl⟩

/-- So do the writer and the reader, whichever of the two they are. -/
theorem mixSecret_abreast (hq : Equipped k p psk) (ht : ∃ tokens ∈ p.messages, t ∈ tokens)
    (he : t ≠ .e) (hs : t ≠ .s) (hin : ∀ key ∈ t.ingredients, key ∈ known) {role : Role}
    {mine yours : KeySlots} (hw : Holds k known role mine) (hr : Holds k known role.peer yours)
    (s : SymmetricState) :
    ∃ s', mixSecret mine (psk role) role s t = .ok s' ∧
      mixSecret yours (psk role.peer) role.peer s t = .ok s' := by
  cases role with
  | initiator => exact mixSecret_both hq ht he hs hin hw hr s
  | responder =>
    obtain ⟨s', hi, hr⟩ := mixSecret_both hq ht he hs hin hr hw s
    exact ⟨s', hr, hi⟩

end Secrets

/-! ## One token -/

/-- Encrypting into an area with room appends the ciphertext. -/
theorem Writing.appendEncrypted_eq {w : Writing} (hs : w.symmetric.WellKeyed)
    (hn : ¬ w.symmetric.cipher.Exhausted) {plaintext : Bytes}
    (hroom : plaintext.length + w.symmetric.overhead ≤ w.free.length) :
    w.appendEncrypted plaintext = .ok { w with
      symmetric := w.symmetric.passed (w.symmetric.ciphertext plaintext)
      written := w.written ++ w.symmetric.ciphertext plaintext
      free := w.free.drop (plaintext.length + w.symmetric.overhead) } := by
  have hlen := SymmetricState.length_ciphertext hs plaintext
  have htake : (w.symmetric.ciphertext plaintext ++
      w.free.drop (plaintext.length + w.symmetric.overhead)).take
        (plaintext.length + w.symmetric.overhead) = w.symmetric.ciphertext plaintext :=
    List.take_left' hlen
  have hdrop : (w.symmetric.ciphertext plaintext ++
      w.free.drop (plaintext.length + w.symmetric.overhead)).drop
        (plaintext.length + w.symmetric.overhead) =
      w.free.drop (plaintext.length + w.symmetric.overhead) :=
    List.drop_left' hlen
  simp only [appendEncrypted, SymmetricState.encryptAndHash_ok hs hn hroom, htake, hdrop]

/-- A writer and a reader at the same place of a message that the party in `role` sends: equal
symmetric states, and slots that hold the keys announced so far. The counter is at most `bound`. -/
structure Abreast (k : Keys) (known : List (Role × Token)) (role : Role) (bound : Nat)
    (w : Writing) (r : Reading) : Prop where
  /-- Both have mixed the same. -/
  symmetric : r.symmetric = w.symmetric
  /-- The cipher's key has its full length. -/
  wellKeyed : w.symmetric.WellKeyed
  /-- The counter is far from its end. -/
  nonce_le : w.symmetric.cipher.nonce.toNat ≤ bound
  /-- The writer's slots. -/
  writer : Holds k known role w.slots
  /-- The reader's slots. -/
  reader : Holds k known role.peer r.slots

section Lockstep

variable {k : Keys} {known : List (Role × Token)} {p : Pattern} {psk : Role → Option PresharedKey}
  {role : Role} {bound : Nat} {w : Writing} {r : Reading}

theorem Abreast.not_exhausted (hab : Abreast k known role bound w r)
    (hbound : bound < CipherState.reservedNonce.toNat) : ¬ w.symmetric.cipher.Exhausted :=
  CipherState.not_exhausted (Nat.lt_of_le_of_lt hab.nonce_le hbound)

/-- An ephemeral key goes over in the clear. -/
theorem token_abreast_e (hab : Abreast k known role bound w r)
    (hfresh : (role, Token.e) ∈ known ∨ (KeyPair.generate w.entropy).1 = k.ephemeral role)
    (hroom : PublicKey.length ≤ w.free.length) :
    ∃ w' r' piece, Writing.token p role (psk role) w .e = .ok w' ∧
      w'.written = w.written ++ piece ∧
      (∀ rest, Reading.token p role.peer (psk role.peer) { r with rest := piece ++ rest } .e =
        .ok { r' with rest }) ∧
      Abreast k ((role, .e) :: known) role bound w' r' := by
  obtain ⟨left, hmade⟩ := hab.writer.generate hfresh
  have hlen : (k.ephemeral role).publicKey.bytes.length = PublicKey.length :=
    (k.ephemeral role).publicKey.length_bytes
  refine ⟨{
      slots := { w.slots with localEphemeral := some (k.ephemeral role) }
      symmetric := mixPublic p w.symmetric .e (k.ephemeral role).publicKey.bytes
      written := w.written ++ (k.ephemeral role).publicKey.bytes
      free := w.free.drop PublicKey.length
      entropy := left },
    { slots := r.slots.setRemoteEphemeral (k.ephemeral role).publicKey
      symmetric := mixPublic p r.symmetric .e (k.ephemeral role).publicKey.bytes
      rest := [] },
    (k.ephemeral role).publicKey.bytes, ?_, rfl, ?_, ?_⟩
  · rw [Writing.token_e, hmade]
    exact if_neg (Nat.not_lt.mpr hroom)
  · intro rest
    have htake : ((k.ephemeral role).publicKey.bytes ++ rest).take PublicKey.length =
        (k.ephemeral role).publicKey.bytes := List.take_left' hlen
    have hdrop : ((k.ephemeral role).publicKey.bytes ++ rest).drop PublicKey.length = rest :=
      List.drop_left' hlen
    rw [Reading.token_e]
    simp only [htake, hdrop]
    exact dif_pos hlen
  · exact ⟨by rw [hab.symmetric], wellKeyed_mixPublic p hab.wellKeyed _ _,
      Nat.le_trans (nonce_mixPublic_le p _ _ _) hab.nonce_le, hab.writer.announce_e,
      hab.reader.learn_e⟩

/-- A static key goes over encrypted, once there is a cipher key. -/
theorem token_abreast_s (hab : Abreast k known role bound w r)
    (hbound : bound < CipherState.reservedNonce.toNat) {pair : KeyPair}
    (hpair : k.static role = some pair)
    (hroom : PublicKey.length + w.symmetric.overhead ≤ w.free.length) :
    ∃ w' r' piece, Writing.token p role (psk role) w .s = .ok w' ∧
      w'.written = w.written ++ piece ∧ w'.entropy = w.entropy ∧
      (∀ rest, Reading.token p role.peer (psk role.peer) { r with rest := piece ++ rest } .s =
        .ok { r' with rest }) ∧
      Abreast k ((role, .s) :: known) role (bound + 1) w' r' := by
  have hs := hab.wellKeyed
  have hn := hab.not_exhausted hbound
  have hown : w.slots.localStaticPublic = some pair.publicKey := by
    rw [KeySlots.localStaticPublic, hab.writer.localStatic, hpair]
    rfl
  have hlen : pair.publicKey.bytes.length = PublicKey.length := pair.publicKey.length_bytes
  have hsent : (w.symmetric.ciphertext pair.publicKey.bytes).length =
      PublicKey.length + w.symmetric.overhead := by
    rw [SymmetricState.length_ciphertext hs, hlen]
  refine ⟨{ w with
      symmetric := w.symmetric.passed (w.symmetric.ciphertext pair.publicKey.bytes)
      written := w.written ++ w.symmetric.ciphertext pair.publicKey.bytes
      free := w.free.drop (pair.publicKey.bytes.length + w.symmetric.overhead) },
    { slots := r.slots.setRemoteStatic pair.publicKey
      symmetric := w.symmetric.passed (w.symmetric.ciphertext pair.publicKey.bytes)
      rest := [] },
    w.symmetric.ciphertext pair.publicKey.bytes, ?_, rfl, rfl, ?_, ?_⟩
  · rw [Writing.token_s, hown]
    exact Writing.appendEncrypted_eq hs hn (by rw [hlen]; exact hroom)
  · intro rest
    have harea : pair.publicKey.bytes.length = (Bytes.zeros PublicKey.length).length := by
      rw [Bytes.length_zeros, hlen]
    obtain ⟨hres, hstate, hfront⟩ :=
      SymmetricState.decryptAndHash_ciphertext hs hn (Nat.le_of_eq harea)
    have hwhole := SymmetricState.length_area_decryptAndHash w.symmetric
      (w.symmetric.ciphertext pair.publicKey.bytes) (Bytes.zeros PublicKey.length)
    rw [List.take_of_length_le (Nat.le_of_eq (hwhole.trans harea.symm))] at hfront
    have hkey : PublicKey.ofBytes pair.publicKey.bytes = .ok pair.publicKey := dif_pos hlen
    rw [Reading.token_s]
    simp only [hab.symmetric, List.take_left' hsent, List.drop_left' hsent, hres, hstate, hfront,
      hkey]
    refine if_neg ?_
    rw [List.length_append, hsent]
    omega
  · refine ⟨rfl, hs.passed _, ?_, hab.writer.announce_s, hab.reader.learn_s hpair⟩
    rw [SymmetricState.passed_cipher]
    exact Nat.le_trans (CipherState.toNat_nonce_passed_le _) (Nat.succ_le_succ hab.nonce_le)

/-- Every token of a message leaves the writer and the reader at the same place, if the keys that it
needs have been announced. -/
theorem token_abreast (hq : Equipped k p psk) {t : Token} (ht : ∃ tokens ∈ p.messages, t ∈ tokens)
    (hab : Abreast k known role bound w r)
    (hbound : bound < CipherState.reservedNonce.toNat)
    (hin : ∀ key ∈ t.ingredients, key ∈ known)
    (hfresh : t = .e → (role, Token.e) ∈ known ∨ (KeyPair.generate w.entropy).1 = k.ephemeral role)
    (hroom : tokenSize w.symmetric.hasKey t ≤ w.free.length) :
    ∃ w' r' piece, Writing.token p role (psk role) w t = .ok w' ∧
      w'.written = w.written ++ piece ∧ (t = .e ∨ w'.entropy = w.entropy) ∧
      (∀ rest, Reading.token p role.peer (psk role.peer) { r with rest := piece ++ rest } t =
        .ok { r' with rest }) ∧
      Abreast k (t.announces role ++ known) role (bound + 1) w' r' := by
  rcases t.carries with rfl | rfl | ⟨he, hs⟩
  · obtain ⟨w', r', piece, hw, hpiece, hr, hab'⟩ := token_abreast_e hab (hfresh rfl) hroom
    refine ⟨w', r', piece, hw, hpiece, Or.inl rfl, hr, ?_⟩
    exact { hab' with nonce_le := Nat.le_succ_of_le hab'.nonce_le }
  · obtain ⟨pair, hpair⟩ := hq.statics (Pattern.usesStatics_of_mem ht rfl) role
    obtain ⟨w', r', piece, hw, hpiece, hsame, hr, hab'⟩ := token_abreast_s hab hbound hpair hroom
    exact ⟨w', r', piece, hw, hpiece, Or.inr hsame, hr, hab'⟩
  · obtain ⟨s', hmine, htheirs⟩ :=
      mixSecret_abreast hq ht he hs hin hab.writer hab.reader w.symmetric
    obtain ⟨-, hsized, hzero⟩ := mixSecret_ok he hs hmine
    have hnone := Token.announces_secret he hs role
    refine ⟨{ w with symmetric := s' }, { r with symmetric := s' }, [], ?_,
      (List.append_nil _).symm, Or.inr rfl, fun rest => ?_, ?_⟩
    · rw [Writing.token_secret he hs, hmine]
    · rw [Reading.token_secret he hs]
      simp only [hab.symmetric, htheirs, List.nil_append]
    · rw [hnone]
      refine ⟨rfl, hsized.wellKeyed, ?_, hab.writer, hab.reader⟩
      dsimp only
      rw [hzero]
      exact Nat.zero_le _

/-! ## Whole messages -/

/-- The tokens of a message leave the writer and the reader at the same place, and the writer with
the room foretold. -/
theorem tokens_abreast (hq : Equipped k p psk) {tokens : List Token}
    (htokens : ∀ t ∈ tokens, ∃ ts ∈ p.messages, t ∈ ts)
    (hab : Abreast k known role bound w r)
    (hbound : bound + tokens.length ≤ CipherState.reservedNonce.toNat)
    (hfollow : Pattern.followable role tokens known = true)
    (hfresh : .e ∈ tokens →
      (role, Token.e) ∈ known ∨ (KeyPair.generate w.entropy).1 = k.ephemeral role)
    {extra : Nat} (hroom : overheadOf p.usesPsk tokens w.symmetric.hasKey + extra ≤ w.free.length) :
    ∃ w' r' sent, tokens.foldlM (Writing.token p role (psk role)) w = .ok w' ∧
      w'.written = w.written ++ sent ∧
      (∀ rest, tokens.foldlM (Reading.token p role.peer (psk role.peer))
        { r with rest := sent ++ rest } = .ok { r' with rest }) ∧
      Abreast k (Pattern.announced role tokens known) role (bound + tokens.length) w' r' ∧
      sent.length + tagSize w'.symmetric.hasKey =
        overheadOf p.usesPsk tokens w.symmetric.hasKey ∧
      tagSize w'.symmetric.hasKey + extra ≤ w'.free.length := by
  induction tokens generalizing known bound w r with
  | nil =>
    exact ⟨w, r, [], rfl, (List.append_nil _).symm, fun rest => rfl, hab, Nat.zero_add _, hroom⟩
  | cons t ts ih =>
    rw [overheadOf] at hroom
    rw [List.length_cons] at hbound
    rw [Pattern.followable, Bool.and_eq_true] at hfollow
    obtain ⟨hin, hfollow⟩ := hfollow
    have hin' : ∀ key ∈ t.ingredients, key ∈ known := by
      simpa using hin
    obtain ⟨w₁, r₁, piece, hw, hpiece, hsame, hr, hab₁⟩ :=
      token_abreast hq (htokens t (List.mem_cons_self ..)) hab (by omega) hin'
        (fun he => hfresh (by simp [he])) (by omega)
    obtain ⟨hkey, hfree⟩ := Writing.token_ok hw
    have hsize : 0 + tokenSize w.symmetric.hasKey t = piece.length := by
      have hrest := (Reading.token_ok (hr [])).2
      rw [hab.symmetric, List.append_nil] at hrest
      exact hrest
    have hfresh₁ : .e ∈ ts → (role, Token.e) ∈ t.announces role ++ known ∨
        (KeyPair.generate w₁.entropy).1 = k.ephemeral role := by
      intro hmem
      rcases hsame with rfl | hsame
      · exact Or.inl (List.mem_cons_self ..)
      · rw [hsame]
        rcases hfresh (List.mem_cons_of_mem _ hmem) with hknown | hmade
        · exact Or.inl (List.mem_append_right _ hknown)
        · exact Or.inr hmade
    obtain ⟨w', r', sent, hws, hsent, hrs, hab', hsize', hroom'⟩ :=
      ih (fun u hu => htokens u (List.mem_cons_of_mem _ hu)) hab₁ (by omega) hfollow hfresh₁
        (by rw [hkey]; omega)
    refine ⟨w', r', piece ++ sent, ?_, ?_, ?_, ?_, ?_, hroom'⟩
    · rw [List.foldlM_cons, hw]
      exact hws
    · rw [hsent, hpiece, List.append_assoc]
    · intro rest
      rw [List.foldlM_cons, List.append_assoc, hr]
      exact hrs rest
    · rw [List.length_cons, ← Nat.add_assoc, Nat.add_right_comm]
      exact hab'
    · rw [overheadOf, ← hkey, ← hsize', List.length_append]
      omega

/-- The payload ends a message: it is read as it was written, and leaves equal states. -/
theorem payload_abreast (hab : Abreast k known role bound w r)
    (hbound : bound < CipherState.reservedNonce.toNat)
    {payload area : Bytes} (hroom : tagSize w.symmetric.hasKey + payload.length ≤ w.free.length)
    (hfits : payload.length ≤ area.length) :
    ∃ w' r' sent, w.appendEncrypted payload = .ok w' ∧ w'.written = w.written ++ sent ∧
      sent.length = payload.length + tagSize w.symmetric.hasKey ∧
      Abreast k known role (bound + 1) w' r' ∧
      (({ r with rest := sent } : Reading).payload area).state = r' ∧
      (({ r with rest := sent } : Reading).payload area).result = .ok payload.length ∧
      (({ r with rest := sent } : Reading).payload area).area.take payload.length = payload := by
  have hs := hab.wellKeyed
  have hn := hab.not_exhausted hbound
  have hlen := SymmetricState.length_ciphertext hs payload
  obtain ⟨hres, hstate, hfront⟩ := SymmetricState.decryptAndHash_ciphertext hs hn hfits
  have hread : ({ r with rest := w.symmetric.ciphertext payload } : Reading).payload area =
      (w.symmetric.decryptAndHash (w.symmetric.ciphertext payload) area).mapState
        fun symmetric => { r with symmetric, rest := [] } := by
    have hlong : w.symmetric.overhead ≤ (w.symmetric.ciphertext payload).length := by omega
    unfold Reading.payload
    rw [hab.symmetric]
    exact if_neg (Nat.not_lt.mpr hlong)
  refine ⟨_, _, _, Writing.appendEncrypted_eq hs hn (by rw [overhead_eq_tagSize]; omega), rfl, hlen,
    ?_, congrArg Outcome.state hread, ?_, ?_⟩
  · refine ⟨hstate, hs.passed _, ?_, hab.writer, hab.reader⟩
    rw [SymmetricState.passed_cipher]
    exact Nat.le_trans (CipherState.toNat_nonce_passed_le _) (Nat.succ_le_succ hab.nonce_le)
  · rw [hread]
    exact hres
  · rw [hread]
    exact hfront

/-- A whole message: what the one party has written, the other one reads, and then both are at the
same place again. -/
theorem message_abreast (hq : Equipped k p psk) {tokens : List Token}
    (htokens : tokens ∈ p.messages) (hab : Abreast k known role bound w r)
    (hbound : bound + tokens.length < CipherState.reservedNonce.toNat) (hempty : w.written = [])
    (hfollow : Pattern.followable role tokens known = true)
    (hfresh : .e ∈ tokens →
      (role, Token.e) ∈ known ∨ (KeyPair.generate w.entropy).1 = k.ephemeral role)
    {payload area : Bytes}
    (hroom : overheadOf p.usesPsk tokens w.symmetric.hasKey + payload.length ≤ w.free.length)
    (hfits : payload.length ≤ area.length) :
    ∃ w' r' o, w.run p role (psk role) tokens payload = .ok w' ∧
      ({ r with rest := w'.written } : Reading).run p role.peer (psk role.peer) tokens area = o ∧
      w'.written.length = overheadOf p.usesPsk tokens w.symmetric.hasKey + payload.length ∧
      Abreast k (Pattern.announced role tokens known) role (bound + tokens.length + 1) w' r' ∧
      o.state = r' ∧ o.result = .ok payload.length ∧ o.area.take payload.length = payload := by
  obtain ⟨w₁, r₁, sent, hw, hsent, hr, hab₁, hsize, hroom₁⟩ :=
    tokens_abreast hq (fun t ht => ⟨tokens, htokens, ht⟩) hab (by omega) hfollow hfresh hroom
  obtain ⟨w', r', last, hlast, hwritten, hsize', hab', hstate, hres, hfront⟩ :=
    payload_abreast hab₁ (by omega) hroom₁ hfits
  have hall : w'.written = sent ++ last := by
    rw [hwritten, hsent, hempty, List.nil_append]
  have hread : ({ r with rest := w'.written } : Reading).run p role.peer (psk role.peer) tokens
      area = ({ r₁ with rest := last } : Reading).payload area := by
    rw [hall, Reading.run, hr last]
  refine ⟨w', r', _, ?_, hread, ?_, hab', hstate, hres, hfront⟩
  · rw [Writing.run, hw]
    exact hlast
  · rw [hall, List.length_append]
    omega

end Lockstep

end Handshake

end NoiseChannel
