import NoiseChannel.Proofs.Lockstep
import NoiseChannel.Proofs.Reachable

/-!
# Two parties agree

A session is an initiator and a responder whose messages are delivered unchanged. `InStep` says that
both stand before the same message with equal symmetric states and with the keys that have been
announced; `inStep_exchange` takes it from one message to the next, `inStep_run` through a whole
session, for each of the four patterns. Once all messages are through, being in step amounts to
agreement.
-/

namespace NoiseChannel

/-! ## Sessions -/

/-- One message of a session: its payload, the areas that the two parties lend, and the source that
the sender may draw from. -/
structure Delivery where
  payload : Bytes
  /-- The area that the message is written to. -/
  sendArea : Bytes
  /-- The area that the payload is read to. -/
  receiveArea : Bytes
  entropy : Entropy

/-- Two parties that talk to each other. -/
structure Session where
  initiator : Handshake
  responder : Handshake

namespace Session

/-- The party in `role`. -/
def party (s : Session) : Role → Handshake
  | .initiator => s.initiator
  | .responder => s.responder

/-- The session of `mine` in `role` with `yours` in the other role. -/
def between (role : Role) (mine yours : Handshake) : Session :=
  match role with
  | .initiator => ⟨mine, yours⟩
  | .responder => ⟨yours, mine⟩

@[simp] theorem party_between (role : Role) (mine yours : Handshake) :
    (between role mine yours).party role = mine := by
  cases role <;> rfl

@[simp] theorem party_between_peer (role : Role) (mine yours : Handshake) :
    (between role mine yours).party role.peer = yours := by
  cases role <;> rfl

/-- The party whose turn it is to write. -/
def turn? (s : Session) : Option Role :=
  if s.initiator.phase = .write then some .initiator
  else if s.responder.phase = .write then some .responder
  else none

/-- What becomes of the party in `role` as it writes. -/
def sent (s : Session) (role : Role) (d : Delivery) : Outcome Handshake :=
  ((s.party role).write d.payload d.sendArea d.entropy).1

/-- The session after the party whose turn it is has written a message and the other party has read
it. A message that cannot be written is not delivered. -/
def exchange (s : Session) (d : Delivery) : Session :=
  match s.turn? with
  | none => s
  | some role =>
    match (s.sent role d).written with
    | .ok message =>
      between role (s.sent role d).state ((s.party role.peer).read message d.receiveArea).state
    | .error _ => between role (s.sent role d).state (s.party role.peer)

/-- The session after a sequence of messages. -/
def run (s : Session) (ds : List Delivery) : Session := ds.foldl exchange s

/-- The areas lent for the next message are large enough. -/
def Fits (s : Session) (d : Delivery) : Prop :=
  ∀ role, (s.party role).phase = .write →
    (s.party role).nextOverhead + d.payload.length ≤ d.sendArea.length ∧
      d.payload.length ≤ d.receiveArea.length

/-- So are all areas lent in the course of a session. -/
def AllFit : Session → List Delivery → Prop
  | _, [] => True
  | s, d :: ds => s.Fits d ∧ (s.exchange d).AllFit ds

/-- The next message goes through: one party is to write and the other one to read, neither call
fails, and what is read is what has been written. -/
def GoesThrough (s : Session) (d : Delivery) : Prop :=
  ∃ role, (s.party role).phase = .write ∧ (s.party role.peer).phase = .read ∧
    ∃ message, (s.sent role d).written = .ok message ∧
      ((s.party role.peer).read message d.receiveArea).written = .ok d.payload

/-- Every message of a session goes through. -/
def Faithful : Session → List Delivery → Prop
  | _, [] => True
  | s, d :: ds => s.GoesThrough d ∧ (s.exchange d).Faithful ds

/-- Both parties are through with the same hash, and each sends under the cipher that the other one
receives under, counted from zero. -/
structure Agreed (s : Session) : Prop where
  /-- All messages are through. -/
  phase_eq : s.initiator.phase = .split ∧ s.responder.phase = .split
  /-- The handshake hash is the same. -/
  hash_eq : ∃ hash, s.initiator.hash = .ok hash ∧ s.responder.hash = .ok hash
  /-- The ciphers are crossed. -/
  split_eq : ∃ there back : CipherState, s.initiator.split.2 = .ok (there, back) ∧
    s.responder.split.2 = .ok (back, there) ∧
    there.hasKey = true ∧ back.hasKey = true ∧ there.nonce = 0 ∧ back.nonce = 0

end Session

/-! ## Room -/

/-- No message grows by more than two public keys and two tags. -/
theorem Handshake.nextOverhead_le (h : Handshake) : h.nextOverhead ≤ 96 := by
  have hall : ∀ p ∈ Pattern.all, ∀ tokens ∈ p.messages,
      overheadOf p.usesPsk tokens true ≤ 96 ∧ overheadOf p.usesPsk tokens false ≤ 96 := by
    decide
  unfold nextOverhead
  split
  · rename_i symmetric tokens hsym htokens
    split
    · have hp : h.pattern ∈ Pattern.all := by
        cases h.pattern <;> decide
      obtain ⟨hkeyed, hunkeyed⟩ := hall _ hp tokens (List.mem_of_getElem? htokens)
      cases symmetric.hasKey with
      | true => exact hkeyed
      | false => exact hunkeyed
    · exact Nat.zero_le _
  · exact Nat.zero_le _

/-- Hence areas of known sizes are enough for any session. -/
theorem Session.allFit_of_ample {ds : List Delivery}
    (h : ∀ d ∈ ds, d.payload.length + 96 ≤ d.sendArea.length ∧
      d.payload.length ≤ d.receiveArea.length) (s : Session) : s.AllFit ds := by
  induction ds generalizing s with
  | nil => trivial
  | cons d ds ih =>
    obtain ⟨hsend, hreceive⟩ := h d (List.mem_cons_self ..)
    refine ⟨fun role _ => ⟨?_, hreceive⟩, ih (fun d' hd' => h d' (List.mem_cons_of_mem _ hd')) _⟩
    have hgrowth := (s.party role).nextOverhead_le
    omega

/-! ## In step -/

/-- Whenever a message sends an ephemeral key, the pair of the session is what its sender's
randomness gives. -/
def Draws (k : Keys) (p : Pattern) : Nat → List Delivery → Prop
  | _, [] => True
  | n, d :: ds =>
    (∀ tokens, p.messages[n]? = some tokens → .e ∈ tokens →
      (KeyPair.generate d.entropy).1 = k.ephemeral (p.writer n)) ∧ Draws k p (n + 1) ds

/-- The party `h` in `role` stands before message `n`, or at the end, with the symmetric state
`shared` and the keys announced so far. -/
structure Stands (k : Keys) (p : Pattern) (psk : Role → Option PresharedKey) (n : Nat)
    (shared : SymmetricState) (role : Role) (h : Handshake) : Prop where
  pattern_eq : h.pattern = p
  role_eq : h.role = some role
  number_eq : h.messageNumber = n
  phase_eq : h.phase = if n < p.messages.length then Handshake.phaseFor p role n else .split
  psk_eq : h.psk = psk role
  symmetric_eq : h.symmetric = some shared
  holds : Holds k (p.knownBefore n) role h.slots

/-- Both parties of a session stand before message `n`, or at the end, with equal symmetric states.
No message takes more than eight values of the counter. -/
def InStep (k : Keys) (p : Pattern) (psk : Role → Option PresharedKey) (n : Nat) (s : Session) :
    Prop :=
  ∃ shared : SymmetricState, (∀ role, Stands k p psk n shared role (s.party role)) ∧
    shared.WellKeyed ∧ shared.cipher.nonce.toNat ≤ 8 * n

namespace Handshake

/-- A message that its tokens and its payload go through is written. -/
theorem write_eq {h : Handshake} {role : Role} {tokens : List Token} {s : SymmetricState}
    {payload area : Bytes} {entropy : Entropy} {w : Writing} (hphase : h.phase = .write)
    (hroom : h.nextOverhead + payload.length ≤ area.length)
    (hopen : h.openMessage = .ok (role, tokens, s))
    (hrun : Writing.run h.pattern role h.psk tokens payload
      { slots := h.slots, symmetric := s, written := []
        free := area.take (h.nextOverhead + payload.length), entropy } = .ok w) :
    h.write payload area entropy =
      (⟨{ h with slots := w.slots, symmetric := some w.symmetric }.advance,
        w.written ++ w.free ++ area.drop (h.nextOverhead + payload.length),
        .ok w.written.length⟩, w.entropy) := by
  simp only [write, refusal_self hphase, if_neg (Nat.not_lt.mpr hroom), hopen, hrun]

/-- A message that its tokens and its payload are read from is read. -/
theorem read_eq {h : Handshake} {role : Role} {tokens : List Token} {s : SymmetricState}
    {message area : Bytes} {o : Outcome Reading} {n : Nat} (hphase : h.phase = .read)
    (hlong : h.nextOverhead ≤ message.length)
    (hroom : message.length - h.nextOverhead ≤ area.length)
    (hopen : h.openMessage = .ok (role, tokens, s))
    (hrun : Reading.run h.pattern role h.psk tokens area
      { slots := h.slots, symmetric := s, rest := message } = o) (hres : o.result = .ok n) :
    h.read message area =
      ⟨{ h with slots := o.state.slots, symmetric := some o.state.symmetric }.advance, o.area,
        .ok n⟩ := by
  simp only [read, refusal_self hphase, if_neg (Nat.not_lt.mpr hlong),
    if_neg (Nat.not_lt.mpr hroom), hopen, hrun, settleRead, hres]

end Handshake

section InStep

variable {k : Keys} {p : Pattern} {psk : Role → Option PresharedKey} {n : Nat} {s : Session}

/-- Both parties mix the same keys before the first message. -/
theorem mixPremessages_both (hq : Equipped k p psk) {slots : Role → KeySlots}
    (hs : ∀ role, Holds k (p.knownBefore 0) role (slots role)) (before : SymmetricState) :
    ∃ after, after.cipher = before.cipher ∧
      ∀ role, Handshake.mixPremessages p role (slots role) before = .ok after := by
  cases p with
  | xx => exact ⟨before, rfl, fun role => Handshake.mixPremessages_eq _ role _ _⟩
  | nnPsk0 => exact ⟨before, rfl, fun role => Handshake.mixPremessages_eq _ role _ _⟩
  | ik =>
    obtain ⟨pair, hpair⟩ := hq.statics rfl .responder
    refine ⟨before.mixHash pair.publicKey.bytes, SymmetricState.mixHash_cipher _ _, fun role => ?_⟩
    rw [Handshake.mixPremessages_eq]
    cases role with
    | initiator =>
      have hpeer := (hs .initiator).remoteStatic (by decide)
      rw [Role.peer, hpair] at hpeer
      simp only [Handshake.premessageKey, hpeer]
      rfl
    | responder =>
      have hown := (hs .responder).localStatic
      rw [hpair] at hown
      simp only [Handshake.premessageKey, KeySlots.localStaticPublic, hown]
      rfl
  | xxFallback =>
    refine ⟨before.mixHash (k.ephemeral .initiator).publicKey.bytes,
      SymmetricState.mixHash_cipher _ _, fun role => ?_⟩
    rw [Handshake.mixPremessages_eq]
    cases role with
    | initiator =>
      have hown := (hs .initiator).ephemeral (by decide)
      simp only [Handshake.premessageKey, KeySlots.localEphemeralPublic, hown]
      rfl
    | responder =>
      have hpeer := (hs .responder).remoteEphemeral (by decide)
      rw [Role.peer] at hpeer
      simp only [Handshake.premessageKey, hpeer]
      rfl

/-- Both parties open a message alike. -/
theorem openMessage_both (hq : Equipped k p psk) {shared : SymmetricState}
    (h : ∀ role, Stands k p psk n shared role (s.party role)) {tokens : List Token}
    (htokens : p.messages[n]? = some tokens) :
    ∃ opened : SymmetricState, opened.cipher = shared.cipher ∧
      ∀ role, (s.party role).openMessage = .ok (role, tokens, opened) := by
  have hnext : ∀ role, (s.party role).nextTokens = some tokens := by
    intro role
    rw [Handshake.nextTokens, (h role).pattern_eq, (h role).number_eq]
    exact htokens
  obtain ⟨opened, hcipher, hopened⟩ : ∃ opened, opened.cipher = shared.cipher ∧
      ∀ role, (s.party role).openingState role shared = .ok opened := by
    by_cases hn : n = 0
    · subst hn
      obtain ⟨opened, hcipher, hmix⟩ := mixPremessages_both hq (fun role => (h role).holds) shared
      refine ⟨opened, hcipher, fun role => ?_⟩
      rw [Handshake.openingState, if_pos (h role).number_eq, (h role).pattern_eq, hmix]
    · refine ⟨shared, rfl, fun role => ?_⟩
      rw [Handshake.openingState, if_neg (by rw [(h role).number_eq]; exact hn)]
  refine ⟨opened, hcipher, fun role => ?_⟩
  rw [Handshake.openMessage_eq, (h role).role_eq, (h role).symmetric_eq]
  simp only [hopened, hnext]

/-- The growth of the next message is known to both parties. -/
theorem Stands.nextOverhead_eq {shared : SymmetricState} {role : Role} {h : Handshake}
    (hs : Stands k p psk n shared role h) {tokens : List Token}
    (htokens : p.messages[n]? = some tokens) :
    h.nextOverhead = Handshake.overheadOf p.usesPsk tokens shared.hasKey := by
  have hlt : n < p.messages.length := (List.getElem?_eq_some_iff.mp htokens).1
  have hdue : h.phase.awaitsMessage = true := by
    rw [hs.phase_eq, if_pos hlt, Handshake.phaseFor]
    split <;> rfl
  have hnext : h.nextTokens = some tokens := by
    rw [Handshake.nextTokens, hs.pattern_eq, hs.number_eq]
    exact htokens
  rw [Handshake.nextOverhead_eq hdue hs.symmetric_eq hnext, hs.pattern_eq]

/-- A party that has processed a message stands before the next one. -/
theorem Stands.advance {shared after : SymmetricState} {role : Role} {h : Handshake}
    (hs : Stands k p psk n shared role h) {tokens : List Token}
    (htokens : p.messages[n]? = some tokens) {slots : KeySlots}
    (hslots : Holds k (Pattern.announced (p.writer n) tokens (p.knownBefore n)) role slots) :
    Stands k p psk (n + 1) after role { h with slots, symmetric := some after }.advance := by
  have hlt : n < p.messages.length := (List.getElem?_eq_some_iff.mp htokens).1
  refine ⟨hs.pattern_eq, hs.role_eq, congrArg (· + 1) hs.number_eq, ?_, hs.psk_eq, rfl, ?_⟩
  · have hphase : h.phase = Handshake.phaseFor h.pattern role h.messageNumber := by
      rw [hs.phase_eq, if_pos hlt, hs.pattern_eq, hs.number_eq]
    have hnext : { h with slots, symmetric := some after }.advance.phase = _ :=
      Handshake.advance_phase hphase
    rw [hnext]
    show (if h.messageNumber + 1 < h.pattern.messages.length then
      Handshake.phaseFor h.pattern role (h.messageNumber + 1) else .split) = _
    rw [hs.number_eq, hs.pattern_eq]
  · rw [Pattern.knownBefore, List.getD_eq_getElem?_getD, htokens]
    exact hslots

theorem Role.eq_or_eq_peer (a b : Role) : b = a ∨ b = a.peer := by
  cases a <;> cases b <;> simp [Role.peer]

/-- The party that is to write is found, where the other one is to read. -/
theorem Session.turn_eq {role : Role} (hwrite : (s.party role).phase = .write)
    (hread : (s.party role.peer).phase = .read) : s.turn? = some role := by
  cases role with
  | initiator => exact if_pos hwrite
  | responder =>
    have hinit : ¬ s.initiator.phase = .write := by
      have hphase : s.initiator.phase = .read := hread
      rw [hphase]
      decide
    rw [turn?, if_neg hinit]
    exact if_pos hwrite

/-- In step, a message for which there is room goes through, and the parties stay in step. -/
theorem inStep_exchange (hq : Equipped k p psk) (h : InStep k p psk n s) {tokens : List Token}
    (htokens : p.messages[n]? = some tokens) {d : Delivery}
    (hdraw : .e ∈ tokens → (KeyPair.generate d.entropy).1 = k.ephemeral (p.writer n))
    (hfit : s.Fits d) : s.GoesThrough d ∧ InStep k p psk (n + 1) (s.exchange d) := by
  obtain ⟨shared, hstands, hkeyed, hnonce⟩ := h
  obtain ⟨hshort, hn⟩ := Pattern.length_tokens_le htokens
  have hlt : n < p.messages.length := (List.getElem?_eq_some_iff.mp htokens).1
  obtain ⟨role, hrole⟩ : ∃ role, p.writer n = role := ⟨_, rfl⟩
  have hmine := hstands role
  have htheirs := hstands role.peer
  have hwrite : (s.party role).phase = .write := by
    rw [hmine.phase_eq, if_pos hlt, Handshake.phaseFor, if_pos hrole]
  have hread : (s.party role.peer).phase = .read := by
    have hother : ¬ p.writer n = role.peer := by
      rw [hrole]
      cases role <;> decide
    rw [htheirs.phase_eq, if_pos hlt, Handshake.phaseFor, if_neg hother]
  obtain ⟨opened, hcipher, hopen⟩ := openMessage_both hq hstands htokens
  have hkey : shared.hasKey = opened.hasKey := congrArg CipherState.hasKey hcipher.symm
  have hover := hmine.nextOverhead_eq htokens
  have hover' := htheirs.nextOverhead_eq htokens
  obtain ⟨hsend, hreceive⟩ := hfit role hwrite
  -- the writer and the reader begin the message at the same place
  have hab : Handshake.Abreast k (p.knownBefore n) role (8 * n)
      { slots := (s.party role).slots, symmetric := opened, written := []
        free := d.sendArea.take ((s.party role).nextOverhead + d.payload.length)
        entropy := d.entropy }
      { slots := (s.party role.peer).slots, symmetric := opened, rest := [] } := by
    refine ⟨rfl, ?_, ?_, hmine.holds, htheirs.holds⟩
    · rw [SymmetricState.WellKeyed, hcipher]
      exact hkeyed
    · rw [hcipher]
      exact hnonce
  have hbound : 8 * n + tokens.length < CipherState.reservedNonce.toNat := by
    have hlarge : 24 < CipherState.reservedNonce.toNat := by decide
    omega
  have hfollow := Pattern.followable_messages htokens
  rw [hrole] at hfollow hdraw
  have hroom : Handshake.overheadOf p.usesPsk tokens opened.hasKey + d.payload.length ≤
      (d.sendArea.take ((s.party role).nextOverhead + d.payload.length)).length := by
    rw [List.length_take, ← hkey, ← hover]
    omega
  obtain ⟨w, r, o, hw, ho, hlen, hab', hstate, hres, hfront⟩ :=
    Handshake.message_abreast hq (List.mem_of_getElem? htokens) hab hbound rfl hfollow
      (fun he => Or.inr (hdraw he)) hroom hreceive
  have hlen' : w.written.length = (s.party role.peer).nextOverhead + d.payload.length := by
    rw [hlen, hover', hkey]
  have hlong : (s.party role.peer).nextOverhead ≤ w.written.length := by omega
  have hreceive' : w.written.length - (s.party role.peer).nextOverhead ≤ d.receiveArea.length := by
    omega
  -- hence both calls succeed
  have hsent := Handshake.write_eq hwrite hsend (hopen role)
    (by rw [hmine.pattern_eq, hmine.psk_eq]; exact hw)
  have hgot := Handshake.read_eq hread hlong hreceive' (hopen role.peer)
    (by rw [htheirs.pattern_eq, htheirs.psk_eq]; exact ho) hres
  have hmessage : (s.sent role d).written = .ok w.written := by
    rw [Session.sent, hsent]
    simp only [Outcome.written, Except.map, List.append_assoc, List.take_left]
  have hpayload : ((s.party role.peer).read w.written d.receiveArea).written = .ok d.payload := by
    rw [hgot]
    simp only [Outcome.written, Except.map, hfront]
  have hexchange : s.exchange d = Session.between role (s.sent role d).state
      ((s.party role.peer).read w.written d.receiveArea).state := by
    rw [Session.exchange, Session.turn_eq hwrite hread]
    simp only [hmessage]
  refine ⟨⟨role, hwrite, hread, w.written, hmessage, hpayload⟩, w.symmetric, ?_, hab'.wellKeyed,
    Nat.le_trans hab'.nonce_le (by omega)⟩
  intro role'
  rw [hexchange]
  rcases Role.eq_or_eq_peer role role' with rfl | rfl
  · rw [Session.party_between, Session.sent, hsent]
    refine hmine.advance htokens ?_
    rw [hrole]
    exact hab'.writer
  · rw [Session.party_between_peer, hgot, hstate, hab'.symmetric]
    refine htheirs.advance htokens ?_
    rw [hrole]
    exact hab'.reader

/-- So does every sequence of messages that the pattern has left. -/
theorem inStep_run (hq : Equipped k p psk) (h : InStep k p psk n s) {ds : List Delivery}
    (hcount : n + ds.length ≤ p.messages.length) (hdraws : Draws k p n ds) (hfit : s.AllFit ds) :
    s.Faithful ds ∧ InStep k p psk (n + ds.length) (s.run ds) := by
  induction ds generalizing n s with
  | nil => exact ⟨trivial, h⟩
  | cons d ds ih =>
    rw [List.length_cons] at hcount
    obtain ⟨hdraw, hdraws⟩ := hdraws
    obtain ⟨hfit, hfits⟩ := hfit
    have hlt : n < p.messages.length := by omega
    have htokens : p.messages[n]? = some p.messages[n] := List.getElem?_eq_getElem hlt
    obtain ⟨hgoes, hstep⟩ := inStep_exchange hq h htokens (hdraw _ htokens) hfit
    obtain ⟨hfaithful, hend⟩ := ih hstep (by omega) hdraws hfits
    refine ⟨⟨hgoes, hfaithful⟩, ?_⟩
    rw [List.length_cons, Nat.add_comm ds.length 1, ← Nat.add_assoc]
    exact hend

/-- In step at the end, the parties agree. -/
theorem InStep.agreed (h : InStep k p psk p.messages.length s) : s.Agreed := by
  obtain ⟨shared, hstands, -, -⟩ := h
  have hphase : ∀ role, (s.party role).phase = .split := by
    intro role
    rw [(hstands role).phase_eq, if_neg (Nat.lt_irrefl _)]
  have hhash : ∀ role, (s.party role).hash = .ok shared.hash := by
    intro role
    simp only [Handshake.hash, hphase, (hstands role).symmetric_eq, Option.map_some]
  obtain ⟨first, second, hsplit⟩ := shared.split_ciphers
  refine ⟨⟨hphase .initiator, hphase .responder⟩, ⟨_, hhash .initiator, hhash .responder⟩,
    ⟨shared.cipher.kind, some first, 0⟩, ⟨shared.cipher.kind, some second, 0⟩, ?_, ?_, rfl, rfl,
    rfl, rfl⟩
  · have hmine : s.initiator.phase = .split := hphase .initiator
    have hrole : s.initiator.role = some .initiator := (hstands .initiator).role_eq
    have hsym : s.initiator.symmetric = some shared := (hstands .initiator).symmetric_eq
    simp only [Handshake.split, hmine, hrole, hsym, hsplit]
  · have hmine : s.responder.phase = .split := hphase .responder
    have hrole : s.responder.role = some .responder := (hstands .responder).role_eq
    have hsym : s.responder.symmetric = some shared := (hstands .responder).symmetric_eq
    simp only [Handshake.split, hmine, hrole, hsym, hsplit]

/-- In the end each party knows the static key of the other, where the pattern has static keys. -/
theorem InStep.learned (h : InStep k p psk p.messages.length s) (hp : p.usesStatics = true)
    (role : Role) :
    (s.party role).slots.remoteStatic = (k.static role.peer).map KeyPair.publicKey := by
  obtain ⟨shared, hstands, -, -⟩ := h
  refine (hstands role).holds.remoteStatic ?_
  cases p with
  | nnPsk0 => cases hp
  | xx | ik | xxFallback => cases role <;> decide

/-! ## The start -/

/-- The symmetric state that a handshake starts with. -/
def Protocol.opening (protocol : Protocol) (prologue : Bytes) : SymmetricState :=
  let fresh := SymmetricState.start protocol.name protocol.suite.cipher protocol.suite.digest
  { fresh with prologue := fresh.prologue.map fun running => running.update prologue }

/-- A handshake started in `role`. -/
def Handshake.started (h : Handshake) (role : Role) (prologue : Bytes) : Handshake :=
  { h with
    slots := h.pattern.forgetStale h.slots
    symmetric := some (h.protocol.opening prologue)
    role := some role
    messageNumber := 0
    phase := phaseFor h.pattern role 0 }

/-- A handshake that has the keys it needs can be started. -/
theorem Handshake.start_eq {h : Handshake} {role : Role} (hphase : h.phase = .initial)
    (hholds : h.holds (h.protocol.needs role) = true)
    (hkept : (h.pattern.forgetStale h.slots).remoteStatic = h.slots.remoteStatic ∨
      (h.protocol.needs role).remoteStatic = false) (prologue : Bytes) :
    h.start role prologue = (h.started role prologue, .ok ()) := by
  have hstill : { h with slots := h.pattern.forgetStale h.slots }.holds
      (h.protocol.needs role) = true := by
    have hlocal : (h.pattern.forgetStale h.slots).localStatic = h.slots.localStatic := by
      cases h.pattern <;> rfl
    simp only [holds, hasKey, hlocal] at hholds ⊢
    rcases hkept with hkept | hkept
    · rw [hkept]
      exact hholds
    · simp only [hkept] at hholds ⊢
      exact hholds
  unfold start
  split
  · exact (if_pos hstill).trans rfl
  · rename_i hfailed
    rw [hphase] at hfailed
    cases hfailed
  · rename_i hinitial _
    exact absurd hphase hinitial

/-- Two handshakes of one protocol, started with the same prologue in the two roles, are in step if
their slots hold the keys that are known beforehand. -/
theorem inStep_started {protocol : Protocol} {parties : Role → Handshake}
    (hprotocol : ∀ role, (parties role).protocol = protocol)
    (hpsk : ∀ role, (parties role).psk = psk role)
    (hholds : ∀ role, Holds k (protocol.pattern.knownBefore 0) role
      (protocol.pattern.forgetStale (parties role).slots)) (prologue : Bytes) :
    InStep k protocol.pattern psk 0
      ⟨(parties .initiator).started .initiator prologue,
        (parties .responder).started .responder prologue⟩ := by
  have hpos : 0 < protocol.pattern.messages.length := by
    cases protocol.pattern <;> decide
  have hstands : ∀ role, Stands k protocol.pattern psk 0 (protocol.opening prologue) role
      ((parties role).started role prologue) := by
    intro role
    have hpattern : (parties role).pattern = protocol.pattern :=
      congrArg Protocol.pattern (hprotocol role)
    refine ⟨hpattern, rfl, rfl, ?_, hpsk role, ?_, ?_⟩
    · rw [if_pos hpos, Handshake.started, hpattern]
    · rw [Handshake.started, hprotocol]
    · rw [Handshake.started, hpattern]
      exact hholds role
  refine ⟨protocol.opening prologue, fun role => ?_, CipherState.wellKeyed_empty _, Nat.zero_le _⟩
  cases role with
  | initiator => exact hstands .initiator
  | responder => exact hstands .responder

end InStep

/-! ## Handshakes that start afresh -/

/-- What the registered protocols need matches their patterns. -/
theorem Protocol.needs_registered {protocol : Protocol} (h : protocol ∈ Protocol.registry)
    (role : Role) :
    (protocol.pattern.usesStatics = true → (protocol.needs role).localStatic = true) ∧
      (protocol.pattern.usesPsk = true → (protocol.needs role).psk = true) ∧
      ((protocol.needs role).remoteStatic = true → protocol.pattern = .ik) := by
  have hall : ∀ protocol ∈ Protocol.registry, ∀ role ∈ Role.all,
      (protocol.pattern.usesStatics = true → (protocol.needs role).localStatic = true) ∧
        (protocol.pattern.usesPsk = true → (protocol.needs role).psk = true) ∧
        ((protocol.needs role).remoteStatic = true → protocol.pattern = .ik) := by
    decide
  exact hall protocol h role (by cases role <;> decide)

/-- A handshake that can be started in `role`: it has not been started yet and holds the keys that
its protocol needs. -/
structure Handshake.Ready (h : Handshake) (protocol : Protocol) (role : Role) : Prop where
  protocol_eq : h.protocol = protocol
  phase_eq : h.phase = .initial
  holds : h.holds (protocol.needs role) = true

namespace Handshake.Ready

variable {h : Handshake} {protocol : Protocol} {role : Role}

theorem localStatic (hready : h.Ready protocol role) (hregistered : protocol ∈ Protocol.registry)
    (hp : protocol.pattern.usesStatics = true) : ∃ pair, h.slots.localStatic = some pair := by
  have hneeds := (Protocol.needs_registered hregistered role).1 hp
  have hheld := hready.holds
  simp only [Handshake.holds, hasKey, hneeds, Bool.not_true, Bool.false_or,
    Bool.and_eq_true] at hheld
  exact Option.isSome_iff_exists.mp hheld.1.1

theorem psk (hready : h.Ready protocol role) (hregistered : protocol ∈ Protocol.registry)
    (hp : protocol.pattern.usesPsk = true) : ∃ key, h.psk = some key := by
  have hneeds := (Protocol.needs_registered hregistered role).2.1 hp
  have hheld := hready.holds
  simp only [Handshake.holds, hasKey, hneeds, Bool.not_true, Bool.false_or,
    Bool.and_eq_true] at hheld
  exact Option.isSome_iff_exists.mp hheld.2

theorem start_eq (hready : h.Ready protocol role) (hregistered : protocol ∈ Protocol.registry)
    (prologue : Bytes) : h.start role prologue = (h.started role prologue, .ok ()) := by
  obtain rfl := hready.protocol_eq
  refine Handshake.start_eq hready.phase_eq hready.holds ?_ prologue
  cases hneeds : (h.protocol.needs role).remoteStatic with
  | false => exact Or.inr rfl
  | true =>
    have hpattern : h.pattern = .ik := (Protocol.needs_registered hregistered role).2.2 hneeds
    rw [hpattern]
    exact Or.inl rfl

end Handshake.Ready

/-- Where the initiator writes first, the ephemeral pairs of a session are made for its first two
messages. -/
theorem draws_of_first_two {k : Keys} {p : Pattern} (hp : p.isFallback = false) {d₀ d₁ : Delivery}
    (h₀ : (KeyPair.generate d₀.entropy).1 = k.ephemeral .initiator)
    (h₁ : (KeyPair.generate d₁.entropy).1 = k.ephemeral .responder) (ds : List Delivery) :
    Draws k p 0 (d₀ :: d₁ :: ds) := by
  have hlater : ∀ (n : Nat) (ds : List Delivery), Draws k p (n + 2) ds := by
    intro n ds
    induction ds generalizing n with
    | nil => trivial
    | cons d ds ih =>
      refine ⟨fun tokens htokens he => ?_, ih (n + 1)⟩
      have hnone : ∀ tokens ∈ p.messages.drop 2, .e ∉ tokens := by
        cases p <;> decide
      refine absurd he (hnone tokens ?_)
      rw [Nat.add_comm, ← List.getElem?_drop] at htokens
      exact List.mem_of_getElem? htokens
  have hfirst : p.writer 0 = .initiator ∧ p.writer 1 = .responder := by
    cases p with
    | xxFallback => cases hp
    | xx | ik | nnPsk0 => decide
  refine ⟨fun _ _ _ => ?_, fun _ _ _ => ?_, hlater 0 ds⟩
  · rw [hfirst.1]
    exact h₀
  · rw [hfirst.2]
    exact h₁

/-- For every registered protocol that starts afresh: let the initiator and the responder hold the
keys that they need, among them the same pre-shared key and, in IK, the responder's true static key.
Start both with one prologue and let each message be read as it was written, with room for it. Then
every call succeeds, one party writing and the other one reading until all messages are through,
what is read is what was written, and in the end the parties agree and know each other's static
keys. -/
theorem handshake_agreement {protocol : Protocol} (hregistered : protocol ∈ Protocol.registry)
    (hafresh : protocol.pattern.isFallback = false) {i r : Handshake}
    (hi : i.Ready protocol .initiator) (hr : r.Ready protocol .responder)
    (hpsk : protocol.pattern.usesPsk = true → i.psk = r.psk)
    (hpeer : protocol.pattern = .ik → i.slots.remoteStatic = r.slots.localStaticPublic)
    (prologue : Bytes) {d₀ d₁ : Delivery} {ds : List Delivery}
    (hcount : (d₀ :: d₁ :: ds).length = protocol.pattern.messages.length)
    (hagrees : ∀ a ∈ (KeyPair.generate d₀.entropy).1 :: i.slots.localStatic.toList,
      ∀ b ∈ (KeyPair.generate d₁.entropy).1 :: r.slots.localStatic.toList, a.Agrees b)
    (hfit : Session.AllFit ⟨(i.start .initiator prologue).1, (r.start .responder prologue).1⟩
      (d₀ :: d₁ :: ds)) :
    let s : Session := ⟨(i.start .initiator prologue).1, (r.start .responder prologue).1⟩
    (i.start .initiator prologue).2 = .ok () ∧ (r.start .responder prologue).2 = .ok () ∧
      s.Faithful (d₀ :: d₁ :: ds) ∧ (s.run (d₀ :: d₁ :: ds)).Agreed ∧
      (protocol.pattern = .xx ∨ protocol.pattern = .ik →
        ∃ a b, i.slots.localStatic = some a ∧ r.slots.localStatic = some b ∧
          (s.run (d₀ :: d₁ :: ds)).initiator.slots.remoteStatic = some b.publicKey ∧
          (s.run (d₀ :: d₁ :: ds)).responder.slots.remoteStatic = some a.publicKey) := by
  let k := Keys.of i.slots.localStatic r.slots.localStatic (KeyPair.generate d₀.entropy).1
    (KeyPair.generate d₁.entropy).1
  let parties := Session.party ⟨i, r⟩
  have hready : ∀ role, (parties role).Ready protocol role := by
    intro role
    cases role with
    | initiator => exact hi
    | responder => exact hr
  have hstatic : ∀ role, (parties role).slots.localStatic = k.static role := by
    intro role
    cases role <;> rfl
  have hq : Equipped k protocol.pattern fun role => (parties role).psk := by
    refine ⟨fun hp role => ?_, fun hp => ?_, hagrees⟩
    · rw [← hstatic]
      exact (hready role).localStatic hregistered hp
    · obtain ⟨key, hkey⟩ := hi.psk hregistered hp
      refine ⟨key, fun role => ?_⟩
      cases role with
      | initiator => exact hkey
      | responder => exact (hpsk hp).symm.trans hkey
  have hholds : ∀ role, Holds k (protocol.pattern.knownBefore 0) role
      (protocol.pattern.forgetStale (parties role).slots) := by
    intro role
    cases hp : protocol.pattern with
    | xxFallback =>
      rw [hp] at hafresh
      cases hafresh
    | xx | nnPsk0 =>
      cases role <;>
        exact ⟨rfl, rfl, fun hmem => absurd hmem (by decide), fun hmem => absurd hmem (by decide)⟩
    | ik =>
      cases role with
      | initiator => exact ⟨rfl, rfl, fun _ => hpeer hp, fun hmem => absurd hmem (by decide)⟩
      | responder =>
        exact ⟨rfl, rfl, fun hmem => absurd hmem (by decide), fun hmem => absurd hmem (by decide)⟩
  have hprotocol : ∀ role, (parties role).protocol = protocol :=
    fun role => (hready role).protocol_eq
  intro s
  have hi' := hi.start_eq hregistered prologue
  have hr' := hr.start_eq hregistered prologue
  have hstart : InStep k protocol.pattern (fun role => (parties role).psk) 0 s := by
    have hstep := inStep_started hprotocol (fun role => rfl) hholds prologue
    simp only [s, hi', hr']
    exact hstep
  have hdraws : Draws k protocol.pattern 0 (d₀ :: d₁ :: ds) :=
    draws_of_first_two hafresh rfl rfl ds
  obtain ⟨hfaithful, hend⟩ :=
    inStep_run hq hstart (Nat.le_of_eq (by rw [hcount, Nat.zero_add])) hdraws hfit
  rw [Nat.zero_add, hcount] at hend
  refine ⟨by rw [hi'], by rw [hr'], hfaithful, hend.agreed, fun hp => ?_⟩
  have hstatics : protocol.pattern.usesStatics = true := by
    rcases hp with hp | hp <;> rw [hp] <;> rfl
  obtain ⟨a, ha⟩ := hi.localStatic hregistered hstatics
  obtain ⟨b, hb⟩ := hr.localStatic hregistered hstatics
  refine ⟨a, b, ha, hb, (hend.learned hstatics .initiator).trans ?_,
    (hend.learned hstatics .responder).trans ?_⟩
  · exact congrArg (Option.map KeyPair.publicKey) hb
  · exact congrArg (Option.map KeyPair.publicKey) ha

/-- An IK handshake with payloads of three bytes and of none. -/
theorem handshake_agreement_ik :
    let a := KeyPair.ofSecret ⟨List.replicate 32 1, rfl⟩
    let b := KeyPair.ofSecret ⟨List.replicate 32 2, rfl⟩
    let i : Handshake := { Handshake.new .ikChaChaPolyBlake2s with
      slots := { localStatic := some a, remoteStatic := some b.publicKey } }
    let r : Handshake := { Handshake.new .ikChaChaPolyBlake2s with
      slots := { localStatic := some b } }
    let ds : List Delivery := [
      ⟨[1, 2, 3], Bytes.zeros 128, Bytes.zeros 3, ⟨fun _ => 3⟩⟩,
      ⟨[], Bytes.zeros 128, [], ⟨fun _ => 4⟩⟩]
    let s : Session := ⟨(i.start .initiator [7]).1, (r.start .responder [7]).1⟩
    s.Faithful ds ∧ (s.run ds).Agreed ∧
      (s.run ds).responder.slots.remoteStatic = some a.publicKey := by
  intro a b i r ds s
  have hi : i.Ready .ikChaChaPolyBlake2s .initiator := ⟨rfl, rfl, rfl⟩
  have hr : r.Ready .ikChaChaPolyBlake2s .responder := ⟨rfl, rfl, rfl⟩
  have hpeer : i.slots.remoteStatic = r.slots.localStaticPublic := by
    simp only [i, r, KeySlots.localStaticPublic, Option.map_some]
  have hfit : s.AllFit ds := Session.allFit_of_ample (by decide +kernel) s
  obtain ⟨-, -, hfaithful, hagreed, hlearned⟩ :=
    handshake_agreement (by decide) rfl hi hr (fun _ => rfl) (fun _ => hpeer) [7] rfl
      (by decide +kernel) hfit
  obtain ⟨a', b', ha, -, -, hlearned⟩ := hlearned (Or.inr rfl)
  have ha' : some a'.publicKey = some a.publicKey :=
    congrArg (Option.map KeyPair.publicKey) ha.symm
  simp only [s, ds]
  exact ⟨hfaithful, hagreed, hlearned.trans ha'⟩

end NoiseChannel
