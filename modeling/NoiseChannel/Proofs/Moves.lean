import NoiseChannel.Proofs.Conveyed
import NoiseChannel.Proofs.Fallback

/-!
# Moves of a handshake

`Moves` lists what a call can do to a handshake, and `Event` what it adds to what is said in it.
`moves` is the only place where all calls are opened; what every call keeps is shown by cases on the
move. The first such properties are that the cipher of a reachable handshake has a key of full length
and a counter that the messages so far can have taken it to (`counted_afterAll`), and that the
pattern tells before which message it has a key (`keyedInTime_afterAll`).
-/

namespace NoiseChannel

/-- Whether the cipher has a key before message `n`. -/
def Pattern.keyedBefore (p : Pattern) : Nat → Bool
  | 0 => false
  | n + 1 => (p.messages.getD n []).foldl (Handshake.keyedAfter p.usesPsk) (p.keyedBefore n)

namespace Handshake

/-! ## Calls that succeed and calls that do not -/

/-- A handshake starts with the keys that it needs, or it is refused and may have failed. -/
theorem start_cases (h : Handshake) (role : Role) (prologue : Bytes) :
    (h.phase = .initial ∧
      { h with slots := h.pattern.forgetStale h.slots }.holds (h.protocol.needs role) = true ∧
      h.start role prologue = (h.started role prologue, .ok ())) ∨
    ∃ h' e, h.start role prologue = (h', .error e) ∧
      (h.phase ≠ .initial ∧ h' = h ∨
        h' = { h with slots := h.pattern.forgetStale h.slots }.fail e) := by
  unfold start
  split
  · rename_i hphase
    by_cases hholds : { h with slots := h.pattern.forgetStale h.slots }.holds
        (h.protocol.needs role) = true
    · exact Or.inl ⟨hphase, hholds, if_pos hholds⟩
    · exact Or.inr ⟨_, _, if_neg hholds, Or.inr rfl⟩
  · rename_i hphase
    exact Or.inr ⟨_, _, rfl, Or.inl ⟨by rw [hphase]; decide, rfl⟩⟩
  · rename_i hphase _
    exact Or.inr ⟨_, _, rfl, Or.inl ⟨hphase, rfl⟩⟩

/-- A fallback takes over from the failed attempt and starts, or it is refused and may have failed. -/
theorem startFallback_cases (h attempt : Handshake) (role : Role) (prologue : Bytes) :
    (∃ slots, h.pattern = .xxFallback ∧ h.phase = .initial ∧
      h.slots.takeOver role attempt.slots = .ok slots ∧
      h.startFallback attempt role prologue = { h with slots }.start role prologue) ∨
    ∃ h' e, h.startFallback attempt role prologue = (h', .error e) ∧ (h' = h ∨ h' = h.fail e) := by
  unfold startFallback
  split
  · rename_i hcond
    cases htake : h.slots.takeOver role attempt.slots with
    | ok slots =>
      simp only [Bool.and_eq_true, beq_iff_eq] at hcond
      obtain ⟨⟨hfallback, hphase⟩, -⟩ := hcond
      refine Or.inl ⟨slots, ?_, hphase, rfl, rfl⟩
      revert hfallback
      cases h.pattern <;> decide
    | error e => exact Or.inr ⟨_, e, rfl, Or.inr rfl⟩
  · exact Or.inr ⟨_, _, rfl, Or.inl rfl⟩

/-- A message that has been read has been processed from its first token to its payload. -/
theorem read_ok {h : Handshake} {message area : Bytes} {n : Nat}
    (hread : (h.read message area).result = .ok n) :
    h.phase = .read ∧ ∃ role tokens s, h.openMessage = .ok (role, tokens, s) ∧
      (Reading.run h.pattern role h.psk tokens area
        { slots := h.slots, symmetric := s, rest := message }).result = .ok n ∧
      h.read message area = h.settleRead (Reading.run h.pattern role h.psk tokens area
        { slots := h.slots, symmetric := s, rest := message }) := by
  have hreads := h.reads message area
  generalize h.read message area = out at hreads hread ⊢
  cases hreads with
  | refused | short | tooSmall | unopened => cases hread
  | @processed role tokens s o hphase _ hopen hrun =>
    refine ⟨hphase, role, tokens, s, hopen, ?_, by rw [hrun]⟩
    rw [← hrun]
    unfold settleRead at hread
    dsimp only at hread
    split at hread
    · rename_i m hm
      cases hread
      exact hm
    · cases hread

/-! ## Moves -/

/-- What a call adds to what is said in a handshake. -/
inductive Event where
  | nothing
  /-- The handshake has been started, with a section of prologue. -/
  | opened (prologue : Bytes)
  /-- One more section of prologue has been taken. -/
  | added (piece : Bytes)
  /-- A message has been written or read. -/
  | passed (message : Bytes)
deriving DecidableEq, Repr

/-- What there is to say of a call, if it has succeeded. -/
def Event.ofResult {α : Type} (say : α → Event) : Except Error α → Event
  | .ok a => say a
  | .error _ => .nothing

theorem Event.ofResult_eq {α : Type} {say : α → Event} {r : Except Error α} {event : Event}
    (h : Event.ofResult say r = event) (hsaid : event ≠ .nothing) :
    ∃ a, r = .ok a ∧ say a = event := by
  cases r with
  | ok a => exact ⟨a, rfl, h⟩
  | error e => exact absurd h.symm hsaid

/-- What a call adds to what is said in a handshake `h`. -/
def event (h : Handshake) : Call → Event
  | .start role prologue => .ofResult (fun _ => .opened prologue) (h.start role prologue).2
  | .startFallback attempt role prologue =>
    .ofResult (fun _ => .opened prologue) (h.startFallback attempt role prologue).2
  | .addPrologue piece => .ofResult (fun _ => .added piece) (h.addPrologue piece)
  | .write payload area entropy => .ofResult .passed (h.write payload area entropy).1.written
  | .read message area => .ofResult (fun _ => .passed message) (h.read message area).result
  | .setLocalKeyPair _ | .setLocalPrivateKey _ | .generateLocalKeyPair _ | .setLocalEphemeral _
  | .setRemotePublicKey _ | .setPresharedKey _ | .removeKey _ | .abandon | .split | .clear =>
    .nothing

/-- What a call can do to a handshake `h`. -/
inductive Moves (h : Handshake) : Call → Event → Handshake → Prop where
  /-- The call is refused, or there is nothing to do. -/
  | still {call : Call} : Moves h call .nothing h
  /-- The handshake fails; it may have come by keys before, or lose all. -/
  | failed {call : Call} {h' : Handshake} : h'.protocol = h.protocol → h'.phase = .failed →
    h'.symmetric = none → Moves h call .nothing h'
  /-- Keys change; they become fewer only if one is removed. -/
  | rekeyed {call : Call} {slots : KeySlots} {psk : Option PresharedKey} :
    ((∀ id, call ≠ .removeKey id) →
      ∀ id, h.hasKey id = true → { h with slots, psk }.hasKey id = true) →
    Moves h call .nothing { h with slots, psk }
  /-- The handshake starts; a fallback has taken keys over. -/
  | started {call : Call} {slots : KeySlots} {role : Role} {prologue : Bytes} : h.phase = .initial →
    Moves h call (.opened prologue) ({ h with slots }.started role prologue)
  /-- A section of prologue is taken. -/
  | added {call : Call} {s s' : SymmetricState} {piece : Bytes} :
    h.phase = .write ∨ h.phase = .read → h.messageNumber = 0 → h.symmetric = some s →
    s.mixPrologue piece = .ok s' →
    Moves h call (.added piece) { h with symmetric := some s' }
  /-- A message is written. -/
  | written {payload area : Bytes} {entropy : Entropy} {role : Role} {tokens : List Token}
      {s : SymmetricState} {w : Writing} :
    h.phase = .write → h.openMessage = .ok (role, tokens, s) →
    Writing.run h.pattern role h.psk tokens payload
      { slots := h.slots, symmetric := s, written := []
        free := area.take (h.nextOverhead + payload.length), entropy } = .ok w →
    Moves h (.write payload area entropy) (.passed w.written)
      { h with slots := w.slots, symmetric := some w.symmetric }.advance
  /-- A message is read. -/
  | read {message area : Bytes} {role : Role} {tokens : List Token} {s : SymmetricState} {n : Nat}
      {o : Outcome Reading} :
    h.phase = .read → h.openMessage = .ok (role, tokens, s) →
    o = Reading.run h.pattern role h.psk tokens area
      { slots := h.slots, symmetric := s, rest := message } →
    o.result = .ok n →
    Moves h (.read message area) (.passed message)
      { h with slots := o.state.slots, symmetric := some o.state.symmetric }.advance
  /-- The ciphers are taken. -/
  | split {s : SymmetricState} : h.phase = .split → h.symmetric = some s →
    Moves h .split .nothing
      { h with
        symmetric := none
        slots := h.slots.removeEphemerals
        phase := .finished
        finalHash := some s.split.1 }

theorem Ends.moves {h h' : Handshake} {turn : Phase} {short : Prop} {e : Error}
    (hends : Ends h turn short h' (.error e)) (call : Call) : Moves h call .nothing h' := by
  cases hends with
  | tooSmall _ _ => exact .still
  | idle _ _ => exact .still
  | failed _ _ _ => exact .failed rfl rfl rfl

section Calls

variable (h : Handshake)

theorem moves_keys {call : Call} (hkeys : call.changesKeys = true) :
    Moves h call .nothing (h.after call) := by
  obtain ⟨slots, psk, hafter, hkept⟩ := after_keys h hkeys
  rw [hafter]
  exact .rekeyed hkept

theorem moves_start (role : Role) (prologue : Bytes) :
    Moves h (.start role prologue) (h.event (.start role prologue))
      (h.after (.start role prologue)) := by
  rw [event, after]
  rcases h.start_cases role prologue with ⟨hphase, -, hstart⟩ | ⟨h', e, hstart, ⟨-, rfl⟩ | rfl⟩
  · rw [hstart]
    exact @Moves.started h _ h.slots role prologue hphase
  · rw [hstart]
    exact .still
  · rw [hstart]
    exact .failed rfl rfl rfl

theorem moves_startFallback (attempt : Handshake) (role : Role) (prologue : Bytes) :
    Moves h (.startFallback attempt role prologue) (h.event (.startFallback attempt role prologue))
      (h.after (.startFallback attempt role prologue)) := by
  rw [event, after]
  rcases h.startFallback_cases attempt role prologue with
    ⟨slots, -, hphase, -, hstart⟩ | ⟨h', e, hstart, rfl | rfl⟩
  · rw [hstart]
    rcases { h with slots }.start_cases role prologue with
      ⟨-, -, hstart⟩ | ⟨h', e, hstart, ⟨hphase', -⟩ | rfl⟩
    · rw [hstart]
      exact @Moves.started h _ slots role prologue hphase
    · exact absurd hphase hphase'
    · rw [hstart]
      exact .failed rfl rfl rfl
  · rw [hstart]
    exact .still
  · rw [hstart]
    exact .failed rfl rfl rfl

theorem moves_addPrologue (piece : Bytes) :
    Moves h (.addPrologue piece) (h.event (.addPrologue piece)) (h.after (.addPrologue piece)) := by
  rw [event, after]
  by_cases hopen : (h.phase = .write ∨ h.phase = .read) ∧ h.messageNumber = 0
  · obtain ⟨hdue, hn⟩ := hopen
    cases hsym : h.symmetric with
    | none =>
      have hadd : h.addPrologue piece = .error .wrongState := by
        rcases hdue with hphase | hphase <;> simp only [addPrologue, hphase, hn, hsym, if_true]
      rw [hadd]
      exact .still
    | some s =>
      have hadd : h.addPrologue piece =
          (s.mixPrologue piece).map fun s' => { h with symmetric := some s' } := by
        rcases hdue with hphase | hphase <;> simp only [addPrologue, hphase, hn, hsym, if_true]
      rw [hadd]
      cases hmix : s.mixPrologue piece with
      | ok s' => exact .added hdue hn hsym hmix
      | error e => exact .still
  · obtain ⟨e, hadd⟩ := Coherent.addPrologue_error hopen piece
    rw [hadd]
    exact .still

theorem moves_write (payload area : Bytes) (entropy : Entropy) :
    Moves h (.write payload area entropy) (h.event (.write payload area entropy))
      (h.after (.write payload area entropy)) := by
  rw [event, after]
  cases hwritten : (h.write payload area entropy).1.written with
  | ok message =>
    obtain ⟨hphase, role, tokens, s, w, hopen, hrun, rfl, hstate⟩ := write_ok hwritten
    rw [hstate]
    exact .written hphase hopen hrun
  | error e =>
    have hends := h.write_ends payload area entropy
    rw [map_error hwritten] at hends
    exact hends.moves _

theorem moves_read (message area : Bytes) :
    Moves h (.read message area) (h.event (.read message area)) (h.after (.read message area)) := by
  rw [event, after]
  cases hread : (h.read message area).result with
  | ok n =>
    obtain ⟨hphase, role, tokens, s, hopen, hrun, heq⟩ := read_ok hread
    rw [heq, settleRead, hrun]
    exact .read hphase hopen rfl hrun
  | error e =>
    have hends := h.read_ends message area
    rw [hread] at hends
    exact hends.moves _

/-- Every call makes one of the moves. -/
theorem moves (call : Call) : Moves h call (h.event call) (h.after call) := by
  cases call with
  | setLocalKeyPair | setLocalPrivateKey | generateLocalKeyPair | setLocalEphemeral
  | setRemotePublicKey | setPresharedKey | removeKey => exact h.moves_keys rfl
  | start role prologue => exact h.moves_start role prologue
  | startFallback attempt role prologue => exact h.moves_startFallback attempt role prologue
  | addPrologue piece => exact h.moves_addPrologue piece
  | write payload area entropy => exact h.moves_write payload area entropy
  | read message area => exact h.moves_read message area
  | abandon =>
    rw [event, after, abandon]
    split
    · exact .failed rfl rfl rfl
    · exact .still
  | split =>
    rw [event, after, split]
    split
    · rename_i role s hphase hrole hsym
      exact .split hphase hsym
    · exact .still
  | clear => exact .failed rfl rfl rfl

end Calls

theorem Moves.protocol_eq {h h' : Handshake} {call : Call} {event : Event}
    (hmoves : Moves h call event h') : h'.protocol = h.protocol := by
  cases hmoves with
  | failed hprotocol _ _ => exact hprotocol
  | still | rekeyed | started | added | written | read | split => rfl

theorem protocol_afterAll (h : Handshake) (calls : List Call) :
    (h.afterAll calls).protocol = h.protocol :=
  afterAll_keeps (P := fun h' => h'.protocol = h.protocol) (Q := fun _ => True)
    (fun h' call _ hp => (h'.moves call).protocol_eq.trans hp) (fun _ _ => trivial) rfl

theorem phaseFor_due (p : Pattern) (role : Role) (n : Nat) :
    phaseFor p role n = .write ∨ phaseFor p role n = .read := by
  unfold phaseFor
  split
  · exact Or.inl rfl
  · exact Or.inr rfl

theorem phase_advance (h : Handshake) :
    h.advance.phase = .write ∨ h.advance.phase = .read ∨ h.advance.phase = .split := by
  unfold advance
  dsimp only
  split
  · exact Or.inr (Or.inr rfl)
  · split
    · exact Or.inr (Or.inl rfl)
    · exact Or.inl rfl

/-- A message that goes through fixes the keys. -/
theorem keys_fixed_advance (h : Handshake) : h.advance.checkKeysMutable ≠ .ok () := by
  intro hok
  rcases checkKeysMutable_ok.mp hok with hphase | ⟨-, hn⟩
  · rcases phase_advance h with hp | hp | hp <;> cases hp.symm.trans hphase
  · exact Nat.succ_ne_zero _ hn

/-! ## The cipher of a reachable handshake -/

/-- The cipher's key has its full length, and its counter is where the messages so far can have taken
it. -/
def Counted (h : Handshake) : Prop :=
  ∀ s, h.symmetric = some s → s.WellKeyed ∧ s.cipher.nonce.toNat ≤ 8 * h.messageNumber

variable {h h' : Handshake} {call : Call} {event : Event}

theorem Counted.opened (hc : Counted h) {role : Role} {tokens : List Token} {s : SymmetricState}
    (hopen : h.openMessage = .ok (role, tokens, s)) :
    s.WellKeyed ∧ s.cipher.nonce.toNat ≤ 8 * h.messageNumber := by
  obtain ⟨-, -, before, hsym, hstate⟩ := openMessage_ok hopen
  have hcipher := openingState_cipher hstate
  obtain ⟨hkeyed, hnonce⟩ := hc before hsym
  rw [SymmetricState.WellKeyed, hcipher]
  exact ⟨hkeyed, hnonce⟩

/-- A message that goes through conveys where it takes the handshake. -/
theorem Moves.conveys {message : Bytes} (hmoves : Moves h call (.passed message) h')
    (hc : Counted h) :
    ∃ role tokens s s' slots, (h.phase = .write ∨ h.phase = .read) ∧
      h.openMessage = .ok (role, tokens, s) ∧ Conveys h.pattern tokens s message s' ∧
      s'.inPrologue = false ∧ h' = { h with slots, symmetric := some s' }.advance := by
  cases hmoves with
  | written hphase hopen hrun =>
    obtain ⟨message, hwritten, hconveys⟩ := Writing.conveys (hc.opened hopen).1 hrun
    rw [List.nil_append] at hwritten
    rw [hwritten]
    exact ⟨_, _, _, _, _, Or.inl hphase, hopen, hconveys, Writing.run_ok hrun, rfl⟩
  | read hphase hopen ho hres =>
    subst ho
    exact ⟨_, _, _, _, _, Or.inr hphase, hopen, Reading.conveys (hc.opened hopen).1 hres,
      Reading.run_ok hres, rfl⟩

/-- A message takes as many values of the counter as it has fields, at most. -/
theorem Counted.passed (hc : Counted h) {role : Role} {tokens : List Token} {s s' : SymmetricState}
    (hopen : h.openMessage = .ok (role, tokens, s)) {message : Bytes}
    (hconveys : Conveys h.pattern tokens s message s') (slots : KeySlots) :
    Counted { h with slots, symmetric := some s' }.advance := by
  obtain ⟨hkeyed, hnonce⟩ := hc.opened hopen
  obtain ⟨-, htokens, -⟩ := openMessage_ok hopen
  have hlen := (Pattern.length_tokens_le htokens).1
  have hstep := hconveys.nonce_le
  intro s₁ hs₁
  cases hs₁
  refine ⟨hconveys.wellKeyed hkeyed, ?_⟩
  show s'.cipher.nonce.toNat ≤ 8 * (h.messageNumber + 1)
  omega

theorem counted_new (protocol : Protocol) : Counted (new protocol) := by
  intro s hs
  cases hs

theorem Counted.moves (hc : Counted h) (hmoves : Moves h call event h') : Counted h' := by
  cases hmoves with
  | still => exact hc
  | failed hprotocol hphase hsym =>
    intro s hs
    rw [hsym] at hs
    cases hs
  | rekeyed _ => exact hc
  | started _ =>
    intro s hs
    cases hs
    exact ⟨CipherState.wellKeyed_empty _, Nat.zero_le _⟩
  | added hdue hn hsym hmix =>
    obtain ⟨hkeyed, hnonce⟩ := hc _ hsym
    intro s hs
    cases hs
    rw [SymmetricState.WellKeyed, SymmetricState.mixPrologue_cipher hmix]
    exact ⟨hkeyed, hnonce⟩
  | written hphase hopen hrun =>
    obtain ⟨message, -, hconveys⟩ := Writing.conveys (hc.opened hopen).1 hrun
    exact hc.passed hopen hconveys _
  | read hphase hopen ho hres =>
    subst ho
    exact hc.passed hopen (Reading.conveys (hc.opened hopen).1 hres) _
  | split hphase hsym =>
    intro s hs
    cases hs

theorem counted_afterAll (protocol : Protocol) (calls : List Call) :
    Counted ((new protocol).afterAll calls) :=
  afterAll_keeps (Q := fun _ => True) (fun h call _ hc => hc.moves (h.moves call))
    (fun _ _ => trivial) (counted_new protocol)

/-- The cipher has a key exactly if the messages so far have mixed one in. -/
def KeyedInTime (h : Handshake) : Prop :=
  ∀ s, h.symmetric = some s → s.hasKey = h.pattern.keyedBefore h.messageNumber

theorem keyedInTime_new (protocol : Protocol) : KeyedInTime (new protocol) := by
  intro s hs
  cases hs

/-- A message that goes through mixes in what the pattern tells. -/
theorem KeyedInTime.passed (hk : KeyedInTime h) {role : Role} {tokens : List Token}
    {s s' : SymmetricState} (hopen : h.openMessage = .ok (role, tokens, s)) {message : Bytes}
    (hconveys : Conveys h.pattern tokens s message s') (slots : KeySlots) :
    KeyedInTime { h with slots, symmetric := some s' }.advance := by
  obtain ⟨-, htokens, before, hsym, hstate⟩ := openMessage_ok hopen
  have hstart : s.hasKey = before.hasKey :=
    congrArg CipherState.hasKey (openingState_cipher hstate)
  have hnext : h.pattern.messages.getD h.messageNumber [] = tokens := by
    rw [List.getD_eq_getElem?_getD]
    exact congrArg (Option.getD · []) htokens
  intro s₁ hs₁
  cases hs₁
  show s'.hasKey = h.pattern.keyedBefore (h.messageNumber + 1)
  rw [hconveys.hasKey_eq, hstart, hk before hsym, Pattern.keyedBefore, hnext]

theorem KeyedInTime.moves (hk : KeyedInTime h) (hc : Counted h) (hmoves : Moves h call event h') :
    KeyedInTime h' := by
  cases hmoves with
  | still => exact hk
  | failed _ _ hsym =>
    intro s hs
    rw [hsym] at hs
    cases hs
  | rekeyed _ => exact hk
  | started _ =>
    intro s hs
    cases hs
    rfl
  | added _ _ hsym hmix =>
    intro s hs
    cases hs
    have hkey := congrArg CipherState.hasKey (SymmetricState.mixPrologue_cipher hmix)
    exact hkey.trans (hk _ hsym)
  | written _ hopen hrun =>
    obtain ⟨message, -, hconveys⟩ := Writing.conveys (hc.opened hopen).1 hrun
    exact hk.passed hopen hconveys _
  | read _ hopen ho hres =>
    subst ho
    exact hk.passed hopen (Reading.conveys (hc.opened hopen).1 hres) _
  | split _ _ =>
    intro s hs
    cases hs

theorem keyedInTime_afterAll (protocol : Protocol) (calls : List Call) :
    KeyedInTime ((new protocol).afterAll calls) := by
  have hboth : Counted ((new protocol).afterAll calls) ∧
      KeyedInTime ((new protocol).afterAll calls) :=
    afterAll_keeps (P := fun h => Counted h ∧ KeyedInTime h) (Q := fun _ => True)
      (fun h call _ hp => ⟨hp.1.moves (h.moves call), hp.2.moves hp.1 (h.moves call)⟩)
      (fun _ _ => trivial) ⟨counted_new protocol, keyedInTime_new protocol⟩
  exact hboth.2

end Handshake

end NoiseChannel
