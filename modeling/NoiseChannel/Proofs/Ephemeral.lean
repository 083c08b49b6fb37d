import NoiseChannel.Proofs.Reachable

/-!
# The ephemeral pair in a message

Which pairs the tokens of a message find when they take this party's ephemeral pair
(`ephemeralsTaken`), which pair a message announces that carries its key, and what writing draws.
A slot that is filled stays as it is, and nothing is drawn (`Settled`); an empty one is filled by
the token that sends the key, with the pair of the next 32 bytes (`Announcing`).
-/

namespace NoiseChannel

theorem PublicKey.take_of_prefix {key : PublicKey} {bs : Bytes} (h : key.bytes <+: bs) :
    bs.take 32 = key.bytes := by
  rw [List.prefix_iff_eq_take, key.length_bytes] at h
  exact h.symm

/-- Whether a token stands for a secret that takes the ephemeral pair of the party in `role`. -/
def Token.takesEphemeral (role : Role) : Token → Bool
  | .ee => true
  | .es => role == .initiator
  | .se => role == .responder
  | .e | .s | .ss | .psk => false

/-- In a message that carries an ephemeral key, nothing but the pre-shared key comes before it. -/
theorem Pattern.front_of_mem {p : Pattern} {n : Nat} {tokens : List Token}
    (h : p.messages[n]? = some tokens) (he : .e ∈ tokens) :
    ∃ front back, tokens = front ++ .e :: back ∧ ∀ t ∈ front, t = .psk := by
  have hall : ∀ ts ∈ p.messages, .e ∈ ts →
      (ts.dropWhile (· == .psk)).head? = some .e := by
    cases p <;> decide
  obtain ⟨back, hback⟩ := List.head?_eq_some_iff.mp (hall tokens (List.mem_of_getElem? h) he)
  refine ⟨tokens.takeWhile (· == .psk), back, ?_, ?_⟩
  · rw [← hback, List.takeWhile_append_dropWhile]
  · intro t ht
    exact beq_iff_eq.mp (List.all_eq_true.mp List.all_takeWhile t ht)

namespace Handshake

/-- Such a token mixes in what this party's ephemeral pair agrees on with a key of the peer. -/
theorem mixSecret_takes {t : Token} {role : Role} (h : t.takesEphemeral role = true)
    (slots : KeySlots) (psk : Option PresharedKey) (s : SymmetricState) :
    ∃ theirs, (theirs = slots.remoteEphemeral ∨ theirs = slots.remoteStatic) ∧
      mixSecret slots psk role s t =
        (KeySlots.agree slots.localEphemeral theirs).map fun secret => s.mixKey secret.bytes := by
  cases t with
  | ee => exact ⟨slots.remoteEphemeral, Or.inl rfl, rfl⟩
  | es =>
    cases role with
    | initiator => exact ⟨slots.remoteStatic, Or.inr rfl, rfl⟩
    | responder => cases h
  | se =>
    cases role with
    | initiator => cases h
    | responder => exact ⟨slots.remoteStatic, Or.inr rfl, rfl⟩
  | e | s | ss | psk => cases h

/-- The other tokens do the same whatever is in its slot, so these are all its uses. -/
theorem mixSecret_ignores {t : Token} {role : Role} (h : t.takesEphemeral role = false)
    (slots : KeySlots) (mine : Option KeyPair) (psk : Option PresharedKey) (s : SymmetricState) :
    mixSecret { slots with localEphemeral := mine } psk role s t =
      mixSecret slots psk role s t := by
  cases t with
  | ee => cases h
  | es =>
    cases role with
    | initiator => cases h
    | responder => rfl
  | se =>
    cases role with
    | initiator => rfl
    | responder => cases h
  | e | s | ss | psk => rfl

/-! ## The tokens of a message -/

section Taken

variable {σ : Type}

/-- What the tokens of a message find in the slot of the ephemeral pair of the party in `role` when
they take it, until processing stops. -/
def ephemeralsTaken (slots : σ → KeySlots) (step : σ → Token → Except (Interrupted σ) σ)
    (role : Role) : List Token → σ → List (Option KeyPair)
  | [], _ => []
  | t :: ts, m =>
    (if t.takesEphemeral role then [(slots m).localEphemeral] else []) ++
      match step m t with
      | .ok m' => ephemeralsTaken slots step role ts m'
      | .error _ => []

variable {slots : σ → KeySlots} {step : σ → Token → Except (Interrupted σ) σ} {role : Role}
  {tokens : List Token} {P : σ → Prop}

/-- What every token keeps holds whenever the ephemeral pair is taken. -/
theorem ephemeralsTaken_keeps (hstep : ∀ t ∈ tokens, ∀ m, P m → P (reached (step m t))) {m : σ}
    (hm : P m) : ∀ mine ∈ ephemeralsTaken slots step role tokens m,
      ∃ m', P m' ∧ (slots m').localEphemeral = mine := by
  induction tokens generalizing m with
  | nil => exact fun mine hmem => absurd hmem List.not_mem_nil
  | cons t ts ih =>
    have ht := hstep t List.mem_cons_self m hm
    intro mine hmem
    rw [ephemeralsTaken, List.mem_append] at hmem
    rcases hmem with hnow | hlater
    · split at hnow
      · exact ⟨m, hm, (List.mem_singleton.mp hnow).symm⟩
      · cases hnow
    · cases hresult : step m t with
      | error stop =>
        rw [hresult] at hlater
        cases hlater
      | ok m' =>
        rw [hresult] at ht hlater
        exact ih (fun u hu => hstep u (List.mem_cons_of_mem t hu)) ht mine hlater

theorem ephemeralsTaken_eq_nil (h : ∀ t ∈ tokens, t.takesEphemeral role = false) (m : σ) :
    ephemeralsTaken slots step role tokens m = [] := by
  induction tokens generalizing m with
  | nil => rfl
  | cons t ts ih =>
    have ht : ¬ t.takesEphemeral role = true := by
      rw [h t List.mem_cons_self]
      decide
    rw [ephemeralsTaken, if_neg ht, List.nil_append]
    split
    · exact ih (fun u hu => h u (List.mem_cons_of_mem t hu)) _
    · rfl

end Taken

/-! ## Writing -/

namespace Writing

variable {p : Pattern} {role : Role} {psk : Option PresharedKey} {w w' : Writing}
  {pair : KeyPair} {left : Entropy} {tokens : List Token} {payload : Bytes}

/-- This party's ephemeral pair is settled, and so is what is left of the source. -/
structure Settled (pair : KeyPair) (left : Entropy) (w : Writing) : Prop where
  slot_eq : w.slots.localEphemeral = some pair
  entropy_eq : w.entropy = left

/-- The pair whose key is announced, should the next token send one. -/
def announced (w : Writing) : KeyPair :=
  w.slots.localEphemeral.getD (KeyPair.generate w.entropy).1

/-- What is left of the source after that. -/
def spared (w : Writing) : Entropy :=
  if w.slots.localEphemeral.isSome then w.entropy else w.entropy.drop 32

/-- An ephemeral key that is sent settles the pair. -/
theorem settled_token_e (p : Pattern) (role : Role) (psk : Option PresharedKey) (w : Writing) :
    Settled w.announced w.spared (reached (token p role psk w .e)) := by
  rw [token_e, generateLocalEphemeral_getD]
  by_cases hroom : w.free.length < PublicKey.length
  · simp only [if_pos hroom]
    exact ⟨rfl, rfl⟩
  · simp only [if_neg hroom]
    exact ⟨rfl, rfl⟩

theorem token_e_written (h : token p role psk w .e = .ok w') :
    w'.written = w.written ++ w.announced.publicKey.bytes := by
  rw [token_e, generateLocalEphemeral_getD] at h
  by_cases hroom : w.free.length < PublicKey.length
  · simp only [if_pos hroom] at h
    cases h
  · simp only [if_neg hroom] at h
    cases h
    rfl

namespace Settled

theorem token (hw : Settled pair left w) (t : Token) :
    Settled pair left (reached (token p role psk w t)) := by
  by_cases he : t = .e
  · subst he
    have hset := settled_token_e p role psk w
    rw [announced, spared, hw.slot_eq] at hset
    exact ⟨hset.slot_eq, hset.entropy_eq.trans hw.entropy_eq⟩
  · refine ⟨?_, (reached_token_entropy he p role psk w).trans hw.entropy_eq⟩
    rw [reached_token_same he]
    exact hw.slot_eq

/-- Once the pair is settled it stays so to the end of the message. -/
theorem run (hw : Settled pair left w) (tokens : List Token) (payload : Bytes) :
    Settled pair left (reached (w.run p role psk tokens payload)) := by
  refine reached_run_keeps (fun t _ _ hm => hm.token t) (fun m hm => ?_) hw
  obtain ⟨hslots, hentropy⟩ := reached_appendEncrypted m payload
  exact ⟨hslots ▸ hm.slot_eq, hentropy.trans hm.entropy_eq⟩

theorem taken (hw : Settled pair left w) (tokens : List Token) :
    ∀ mine ∈ ephemeralsTaken Writing.slots (Writing.token p role psk) role tokens w,
      mine = some pair := by
  intro mine hmem
  obtain ⟨m, hm, rfl⟩ :=
    ephemeralsTaken_keeps (P := Settled pair left) (fun t _ _ hm => hm.token t) hw mine hmem
  exact hm.slot_eq

end Settled

/-- How a message goes, begun at `w`, that announces the ephemeral key of its sender. -/
structure Announcing (p : Pattern) (role : Role) (psk : Option PresharedKey) (tokens : List Token)
    (payload : Bytes) (w : Writing) : Prop where
  /-- Its tokens take the pair that is announced. -/
  taken : ∀ mine ∈ ephemeralsTaken slots (token p role psk) role tokens w, mine = some w.announced
  /-- Nothing is drawn but the bytes of that pair. -/
  drawn : (reached (w.run p role psk tokens payload)).entropy = w.entropy ∨
    (reached (w.run p role psk tokens payload)).entropy = w.spared
  /-- What is written begins with the public key. -/
  sent : ∀ w', w.run p role psk tokens payload = .ok w' →
    Settled w.announced w.spared w' ∧ w.written ++ w.announced.publicKey.bytes <+: w'.written

/-- A key that comes first is announced at once. -/
theorem announcing_e (back : List Token) (payload : Bytes) (w : Writing) :
    Announcing p role psk (.e :: back) payload w := by
  have hset := settled_token_e p role psk w
  have hnot : ¬ Token.takesEphemeral role .e = true := Bool.false_ne_true
  have hrun : w.run p role psk (.e :: back) payload =
      (token p role psk w .e >>= fun w => w.run p role psk back payload) := by
    rw [run, List.foldlM_cons, bind_assoc]
    rfl
  constructor
  · intro mine hmem
    rw [ephemeralsTaken, if_neg hnot, List.nil_append] at hmem
    cases htoken : token p role psk w .e with
    | error stop =>
      rw [htoken] at hmem
      cases hmem
    | ok m =>
      rw [htoken] at hset hmem
      exact hset.taken back mine hmem
  · rw [hrun]
    cases htoken : token p role psk w .e with
    | error stop =>
      rw [htoken] at hset
      exact Or.inr hset.entropy_eq
    | ok m =>
      rw [htoken] at hset
      exact Or.inr (hset.run back payload).entropy_eq
  · intro w' hw'
    rw [hrun] at hw'
    cases htoken : token p role psk w .e with
    | error stop =>
      rw [htoken] at hw'
      cases hw'
    | ok m =>
      rw [htoken] at hset hw'
      change m.run p role psk back payload = .ok w' at hw'
      have hdone : Settled w.announced w.spared (reached (m.run p role psk back payload)) :=
        hset.run back payload
      rw [hw'] at hdone
      exact ⟨hdone, token_e_written htoken ▸ run_written hw'⟩

/-- The pre-shared key, which may come before, changes none of it. -/
theorem announcing_psk (hlater : ∀ w, Announcing p role psk tokens payload w) (w : Writing) :
    Announcing p role psk (.psk :: tokens) payload w := by
  cases psk with
  | none =>
    have hrun : w.run p role none (.psk :: tokens) payload = .error ⟨.missingKey, w⟩ := rfl
    constructor
    · intro mine hmem
      cases hmem
    · rw [hrun]
      exact Or.inl rfl
    · intro w' hw'
      rw [hrun] at hw'
      cases hw'
  | some key =>
    obtain ⟨htaken, hdrawn, hsent⟩ :=
      hlater { w with symmetric := w.symmetric.mixKeyAndHash key.bytes }
    exact ⟨htaken, hdrawn, hsent⟩

/-- So a message that carries an ephemeral key announces it, since nothing but the pre-shared key
comes before. -/
theorem announcing {q : Pattern} {n : Nat} (htokens : q.messages[n]? = some tokens)
    (he : .e ∈ tokens) (payload : Bytes) (w : Writing) :
    Announcing p role psk tokens payload w := by
  have hsplit : ∀ front back, (∀ t ∈ front, t = Token.psk) →
      ∀ w, Announcing p role psk (front ++ .e :: back) payload w := by
    intro front back hfront
    induction front with
    | nil => exact announcing_e back payload
    | cons t front ih =>
      obtain ⟨rfl, hlater⟩ := List.forall_mem_cons.mp hfront
      exact announcing_psk (ih hlater)
  obtain ⟨front, back, rfl, hfront⟩ := Pattern.front_of_mem htokens he
  exact hsplit front back hfront w

/-- Writing the tokens of a message draws nothing, unless it carries the key of a pair that has yet
to be made. -/
theorem run_drawn {q : Pattern} {n : Nat} (htokens : q.messages[n]? = some tokens)
    (payload : Bytes) (w : Writing) :
    (reached (w.run p role psk tokens payload)).entropy = w.entropy ∨
      (reached (w.run p role psk tokens payload)).entropy = w.entropy.drop 32 ∧
        w.slots.localEphemeral = none ∧ .e ∈ tokens := by
  by_cases he : .e ∈ tokens
  · rcases (announcing htokens he payload w).drawn with hleft | hleft
    · exact Or.inl hleft
    · cases hslot : w.slots.localEphemeral with
      | some pair =>
        rw [spared, hslot] at hleft
        exact Or.inl hleft
      | none =>
        rw [spared, hslot] at hleft
        exact Or.inr ⟨hleft, rfl, he⟩
  · refine Or.inl (reached_run_keeps (P := fun m => m.entropy = w.entropy) ?_ ?_ rfl)
    · intro t ht m hm
      exact (reached_token_entropy (fun heq => he (heq ▸ ht)) p role psk m).trans hm
    · exact fun m hm => (reached_appendEncrypted m payload).2.trans hm

end Writing

/-! ## Message calls -/

/-- Reading takes what has been in the slot from the beginning. -/
theorem Reading.taken (p : Pattern) (role : Role) (psk : Option PresharedKey)
    (tokens : List Token) (r : Reading) :
    ∀ mine ∈ ephemeralsTaken Reading.slots (Reading.token p role psk) role tokens r,
      mine = r.slots.localEphemeral := by
  intro mine hmem
  obtain ⟨m, hm, rfl⟩ :=
    ephemeralsTaken_keeps (P := fun m => m.slots.localEphemeral = r.slots.localEphemeral)
      (fun t _ m hm => (Reading.reached_token_slots p role psk t m).2.trans hm) rfl mine hmem
  exact hm

variable {h : Handshake} {payload area : Bytes} {entropy : Entropy} {pair : KeyPair}

/-- What the tokens of a message find in the slot of the ephemeral pair when they take it, in the
call that writes or reads it. -/
def ephemeralsUsed (h : Handshake) : Call → List (Option KeyPair)
  | .write payload area entropy =>
    if h.phase = .write ∧ h.nextOverhead + payload.length ≤ area.length then
      match h.openMessage with
      | .ok (role, tokens, symmetric) =>
        ephemeralsTaken Writing.slots (Writing.token h.pattern role h.psk) role tokens
          { slots := h.slots, symmetric, written := []
            free := area.take (h.nextOverhead + payload.length), entropy }
      | .error _ => []
    else []
  | .read message area =>
    if h.phase = .read ∧ h.nextOverhead ≤ message.length ∧
        message.length - h.nextOverhead ≤ area.length then
      match h.openMessage with
      | .ok (role, tokens, symmetric) =>
        ephemeralsTaken Reading.slots (Reading.token h.pattern role h.psk) role tokens
          { slots := h.slots, symmetric, rest := message }
      | .error _ => []
    else []
  | _ => []

/-- Whether writing with `payload` to `area` processes a message that carries this party's ephemeral
key. -/
def SendsEphemeral (h : Handshake) (payload area : Bytes) : Prop :=
  h.phase = .write ∧ h.nextOverhead + payload.length ≤ area.length ∧
    Token.e ∈ h.nextTokens.getD []

instance (h : Handshake) (payload area : Bytes) : Decidable (h.SendsEphemeral payload area) :=
  inferInstanceAs (Decidable (_ ∧ _ ∧ _))

theorem SendsEphemeral.tokens (hsends : h.SendsEphemeral payload area) {role : Role}
    {tokens : List Token} {s : SymmetricState} (hopen : h.openMessage = .ok (role, tokens, s)) :
    h.pattern.messages[h.messageNumber]? = some tokens ∧ .e ∈ tokens := by
  obtain ⟨-, htokens, -⟩ := openMessage_ok hopen
  have he := hsends.2.2
  rw [htokens] at he
  exact ⟨htokens, he⟩

theorem ephemeralsUsed_write {mine : Option KeyPair}
    (hmem : mine ∈ h.ephemeralsUsed (.write payload area entropy)) :
    h.phase = .write ∧ h.nextOverhead + payload.length ≤ area.length ∧
      ∃ role tokens s, h.openMessage = .ok (role, tokens, s) ∧
        mine ∈ ephemeralsTaken Writing.slots (Writing.token h.pattern role h.psk) role tokens
          { slots := h.slots, symmetric := s, written := []
            free := area.take (h.nextOverhead + payload.length), entropy } := by
  rw [ephemeralsUsed] at hmem
  split at hmem
  · rename_i hready
    split at hmem
    · rename_i role tokens s hopen
      exact ⟨hready.1, hready.2, role, tokens, s, hopen, hmem⟩
    · cases hmem
  · cases hmem

theorem ephemeralsUsed_read {message : Bytes} {mine : Option KeyPair}
    (hmem : mine ∈ h.ephemeralsUsed (.read message area)) :
    h.phase = .read ∧ ∃ role tokens s, h.openMessage = .ok (role, tokens, s) ∧
      mine ∈ ephemeralsTaken Reading.slots (Reading.token h.pattern role h.psk) role tokens
        { slots := h.slots, symmetric := s, rest := message } := by
  rw [ephemeralsUsed] at hmem
  split at hmem
  · rename_i hready
    split at hmem
    · rename_i role tokens s hopen
      exact ⟨hready.1, role, tokens, s, hopen, hmem⟩
    · cases hmem
  · cases hmem

section Write

variable (h : Handshake) (payload area : Bytes) (entropy : Entropy)

/-- Writing draws nothing, unless it processes a message that carries the key of a pair that has yet
to be made. -/
theorem write_drawn :
    (h.write payload area entropy).2 = entropy ∨
      (h.write payload area entropy).2 = entropy.drop 32 ∧ h.slots.localEphemeral = none ∧
        h.SendsEphemeral payload area := by
  have hwrites := h.writes payload area entropy
  generalize h.write payload area entropy = out at hwrites ⊢
  have hrun : ∀ {role tokens s}, h.phase = .write →
      h.nextOverhead + payload.length ≤ area.length → h.openMessage = .ok (role, tokens, s) →
      let left := (reached (Writing.run h.pattern role h.psk tokens payload
        { slots := h.slots, symmetric := s, written := []
          free := area.take (h.nextOverhead + payload.length), entropy })).entropy
      left = entropy ∨ left = entropy.drop 32 ∧ h.slots.localEphemeral = none ∧
        h.SendsEphemeral payload area := by
    intro role tokens s hphase hroom hopen left
    obtain ⟨-, htokens, -⟩ := openMessage_ok hopen
    rcases Writing.run_drawn htokens payload _ with hleft | ⟨hleft, hnone, he⟩
    · exact Or.inl hleft
    · refine Or.inr ⟨hleft, hnone, hphase, hroom, ?_⟩
      rw [htokens]
      exact he
  cases hwrites with
  | refused | tooSmall | unopened => exact Or.inl rfl
  | stopped hphase hroom hopen hstop =>
    have hleft := hrun hphase hroom hopen
    rw [hstop] at hleft
    exact hleft
  | through hphase hroom hopen hdone =>
    have hleft := hrun hphase hroom hopen
    rw [hdone] at hleft
    exact hleft

variable {h payload area entropy}

/-- A message that carries this party's ephemeral key begins with it and leaves its pair in the
slot: the pair that was there before, else the one of the next 32 bytes, and only these are
drawn. -/
theorem write_sends {message : Bytes}
    (hwritten : (h.write payload area entropy).1.written = .ok message)
    (hsends : h.SendsEphemeral payload area) :
    let pair := h.slots.localEphemeral.getD (KeyPair.generate entropy).1
    message.take 32 = pair.publicKey.bytes ∧
      (h.write payload area entropy).1.state.slots.localEphemeral = some pair ∧
      (h.write payload area entropy).2 =
        if h.slots.localEphemeral.isSome then entropy else entropy.drop 32 := by
  intro pair
  have hwrites := h.writes payload area entropy
  generalize h.write payload area entropy = out at hwrites hwritten ⊢
  cases hwrites with
  | refused | tooSmall | unopened | stopped => cases hwritten
  | @through role tokens s w _ _ hopen hrun =>
    obtain ⟨htokens, he⟩ := hsends.tokens hopen
    obtain ⟨⟨hslot, hleft⟩, hfront⟩ := (Writing.announcing htokens he payload _).sent w hrun
    refine ⟨?_, hslot, hleft⟩
    simp only [Outcome.written, Except.map, List.append_assoc, List.take_left] at hwritten
    rw [← Except.ok.inj hwritten]
    exact PublicKey.take_of_prefix hfront

theorem sends_of_written {message : Bytes}
    (hwritten : (h.write payload area entropy).1.written = .ok message)
    (he : .e ∈ h.nextTokens.getD []) : h.SendsEphemeral payload area := by
  have hwrites := h.writes payload area entropy
  generalize h.write payload area entropy = out at hwrites hwritten
  cases hwrites with
  | refused | tooSmall | unopened | stopped => cases hwritten
  | through hphase hroom => exact ⟨hphase, hroom, he⟩

/-- Writing never replaces a pair. -/
theorem write_settled (hslot : h.slots.localEphemeral = some pair) :
    (h.write payload area entropy).1.state.slots.localEphemeral = some pair := by
  have hwrites := h.writes payload area entropy
  generalize h.write payload area entropy = out at hwrites ⊢
  have hrun : ∀ (role : Role) (tokens : List Token) (s : SymmetricState),
      (reached (Writing.run h.pattern role h.psk tokens payload
        { slots := h.slots, symmetric := s, written := []
          free := area.take (h.nextOverhead + payload.length), entropy })).slots.localEphemeral =
        some pair := by
    intro role tokens s
    exact (Writing.Settled.run ⟨hslot, rfl⟩ tokens payload).slot_eq
  cases hwrites with
  | refused href => rcases refusal_cases href with rfl | rfl <;> exact hslot
  | tooSmall | unopened => exact hslot
  | @stopped role tokens s _ _ _ _ hstop =>
    have hset := hrun role tokens s
    rw [hstop] at hset
    exact hset
  | @through role tokens s _ _ _ _ hdone =>
    have hset := hrun role tokens s
    rw [hdone] at hset
    exact hset

theorem ephemeralsUsed_sends (hsends : h.SendsEphemeral payload area) :
    ∀ mine ∈ h.ephemeralsUsed (.write payload area entropy),
      mine = some (h.slots.localEphemeral.getD (KeyPair.generate entropy).1) := by
  intro mine hmem
  obtain ⟨-, -, role, tokens, s, hopen, hmem⟩ := ephemeralsUsed_write hmem
  obtain ⟨htokens, he⟩ := hsends.tokens hopen
  exact (Writing.announcing htokens he payload _).taken mine hmem

theorem ephemeralsUsed_settled (hslot : h.slots.localEphemeral = some pair) :
    ∀ mine ∈ h.ephemeralsUsed (.write payload area entropy), mine = some pair := by
  intro mine hmem
  obtain ⟨-, -, role, tokens, s, hopen, hmem⟩ := ephemeralsUsed_write hmem
  exact Writing.Settled.taken ⟨hslot, rfl⟩ tokens mine hmem

end Write

/-- Reading leaves the slot alone. -/
theorem read_own (h : Handshake) (message area : Bytes) :
    (h.read message area).state.slots.localEphemeral = h.slots.localEphemeral := by
  have hreads := h.reads message area
  generalize h.read message area = out at hreads ⊢
  cases hreads with
  | refused href => rcases refusal_cases href with rfl | rfl <;> rfl
  | short | tooSmall | unopened => rfl
  | @processed role tokens s o _ _ _ hrun =>
    have hown := (Reading.run_own h.pattern role h.psk tokens area
      { slots := h.slots, symmetric := s, rest := message }).2
    rw [← hrun] at hown
    unfold settleRead
    dsimp only
    split <;> exact hown

end Handshake

end NoiseChannel
