import NoiseChannel.Pipes
import NoiseChannel.Proofs.Agreement
import NoiseChannel.Proofs.Ephemeral

/-!
# Falling back

An IK attempt that fails because the responder cannot authenticate the first message leaves the
initiator's ephemeral key behind on both sides: with its owner, who has sent it, and with the
responder, who has read it before anything could go wrong. That, and the static pairs, is all that
XXfallback needs to be in step from the start (`inStep_fallback`).
-/

namespace NoiseChannel

namespace Handshake

/-! ## What the first message leaves in the slots -/

namespace Writing

variable {p : Pattern} {role : Role} {psk : Option PresharedKey} {w w' : Writing}
  {tokens : List Token} {payload : Bytes}

/-- A message that begins with an ephemeral key begins with its bytes, and leaves the pair with the
sender. -/
theorem run_first (hempty : w.written = [])
    (h : w.run p role psk (.e :: tokens) payload = .ok w') :
    ∃ pair : KeyPair, w'.slots = { w.slots with localEphemeral := some pair } ∧
      w'.written.take 32 = pair.publicKey.bytes := by
  obtain ⟨hsettled, hfront⟩ := (announcing_e tokens payload w).sent w' h
  have hslots := reached_run_slots p role psk (.e :: tokens) payload w
  rw [h] at hslots
  change w'.slots = { w.slots with localEphemeral := w'.slots.localEphemeral } at hslots
  rw [hsettled.slot_eq] at hslots
  rw [hempty] at hfront
  exact ⟨w.announced, hslots, PublicKey.take_of_prefix hfront⟩

/-- Who has sent a static key holds the pair. -/
theorem run_static (hs : .s ∈ tokens) (h : w.run p role psk tokens payload = .ok w') :
    ∃ pair, w.slots.localStatic = some pair := by
  induction tokens generalizing w with
  | nil => cases hs
  | cons t ts ih =>
    obtain ⟨m, hfold, hlast⟩ := run_done h
    rw [List.foldlM_cons] at hfold
    obtain ⟨w₁, ht, hrest⟩ := bind_ok hfold
    by_cases hts : t = .s
    · subst hts
      rw [token_s] at ht
      cases hown : w.slots.localStatic with
      | some pair => exact ⟨pair, rfl⟩
      | none =>
        rw [KeySlots.localStaticPublic, hown] at ht
        cases ht
    · have hkept := congrArg KeySlots.localStatic (reached_token_slots p role psk t w)
      rw [ht] at hkept
      have hmem : .s ∈ ts := (List.mem_cons.mp hs).resolve_left (fun heq => hts heq.symm)
      have hdone : w₁.run p role psk ts payload = .ok w' := by
        rw [run, hrest]
        exact hlast
      obtain ⟨pair, hpair⟩ := ih hmem hdone
      exact ⟨pair, hkept.symm.trans hpair⟩

end Writing

namespace Reading

variable {p : Pattern} {role : Role} {psk : Option PresharedKey} {r : Reading}
  {tokens : List Token} {area : Bytes}

/-- When a message that begins with an ephemeral key does not authenticate, the key has been taken
from it already. -/
theorem run_first (hts : .e ∉ tokens)
    (h : (r.run p role psk (.e :: tokens) area).result = .error .cryptoFailed) :
    ∃ key : PublicKey,
      (r.run p role psk (.e :: tokens) area).state.slots.remoteEphemeral = some key ∧
        key.bytes = r.rest.take 32 := by
  rw [run_state_slots, List.foldlM_cons]
  rw [run, List.foldlM_cons] at h
  rw [token_e] at h ⊢
  by_cases hlen : (r.rest.take PublicKey.length).length = 32
  · refine ⟨⟨r.rest.take PublicKey.length, hlen⟩, ?_, rfl⟩
    rw [dif_pos hlen]
    exact reached_foldlM (fun r : Reading => r.slots.remoteEphemeral)
      (fun t ht r => reached_token_remoteEphemeral (fun he => hts (he ▸ ht)) p role psk r) _
  · rw [dif_neg hlen] at h
    cases h

end Reading

/-! ## What a call leaves behind -/

/-- A message that has been written has been processed from its first token to its payload. -/
theorem write_ok {h : Handshake} {payload area : Bytes} {entropy : Entropy} {message : Bytes}
    (hsent : (h.write payload area entropy).1.written = .ok message) :
    h.phase = .write ∧ ∃ role tokens s w, h.openMessage = .ok (role, tokens, s) ∧
      Writing.run h.pattern role h.psk tokens payload
        { slots := h.slots, symmetric := s, written := []
          free := area.take (h.nextOverhead + payload.length), entropy } = .ok w ∧
      w.written = message ∧ (h.write payload area entropy).1.state =
        { h with slots := w.slots, symmetric := some w.symmetric }.advance := by
  have hwrites := h.writes payload area entropy
  generalize h.write payload area entropy = out at hwrites hsent ⊢
  cases hwrites with
  | refused | tooSmall | unopened | stopped => cases hsent
  | @through role tokens s w hphase _ hopen hrun =>
    refine ⟨hphase, role, tokens, s, w, hopen, hrun, ?_, rfl⟩
    simp only [Outcome.written, Except.map, List.append_assoc, List.take_left] at hsent
    exact Except.ok.inj hsent

/-- A message that does not authenticate has been processed up to that point; what the slots had
come by until then is kept. -/
theorem read_cryptoFailed {h : Handshake} {message area : Bytes}
    (hfailed : (h.read message area).result = .error .cryptoFailed) :
    h.phase = .read ∧ ∃ role tokens s, h.openMessage = .ok (role, tokens, s) ∧
      (Reading.run h.pattern role h.psk tokens area
        { slots := h.slots, symmetric := s, rest := message }).result = .error .cryptoFailed ∧
      (h.read message area).state =
        { h with
          slots := (Reading.run h.pattern role h.psk tokens area
            { slots := h.slots, symmetric := s, rest := message }).state.slots }.fail
          .cryptoFailed := by
  have hreads := h.reads message area
  generalize h.read message area = out at hreads hfailed ⊢
  cases hreads with
  | refused href =>
    cases hfailed
    rcases refusal_error href with he | he <;> cases he
  | short | tooSmall => cases hfailed
  | unopened _ _ hopen =>
    cases hfailed
    rcases openMessage_error hopen with he | he <;> cases he
  | @processed role tokens s o hphase _ hopen hrun =>
    refine ⟨hphase, role, tokens, s, hopen, ?_⟩
    rw [← hrun]
    simp only [settleRead] at hfailed ⊢
    split at hfailed
    · cases hfailed
    · rename_i e he
      cases hfailed
      rw [he]
      exact ⟨rfl, rfl⟩

/-- The initiator has sent an ephemeral key in the clear and holds the pair; it awaits the reply. -/
theorem sent_first {a : Handshake} (hpattern : a.pattern = .ik) (hfirst : a.messageNumber = 0)
    {payload area : Bytes} {entropy : Entropy} {message : Bytes}
    (hsent : (a.write payload area entropy).1.written = .ok message) :
    ∃ static ephemeral : KeyPair, a.slots.localStatic = some static ∧
      message.take 32 = ephemeral.publicKey.bytes ∧
      ∃ symmetric, (a.write payload area entropy).1.state =
        { a with
          slots := { a.slots with localEphemeral := some ephemeral }
          symmetric, phase := .read, messageNumber := 1 } := by
  obtain ⟨hphase, role, tokens, s, w, hopen, hrun, hwritten, hstate⟩ := write_ok hsent
  obtain ⟨-, htokens, -⟩ := openMessage_ok hopen
  rw [nextTokens, hpattern, hfirst] at htokens
  obtain rfl : [Token.e, .es, .s, .ss] = tokens := Option.some.inj htokens
  obtain ⟨static, hstatic⟩ := Writing.run_static (by decide) hrun
  obtain ⟨ephemeral, hslots, hfront⟩ := Writing.run_first rfl hrun
  refine ⟨static, ephemeral, hstatic, by rw [← hwritten]; exact hfront, some w.symmetric, ?_⟩
  have hnumber : ¬ Pattern.ik.messages.length ≤ 0 + 1 := by decide
  have hpattern' : a.protocol.pattern = .ik := hpattern
  rw [hstate, hslots]
  simp only [advance, pattern, hpattern', hfirst, if_neg hnumber, if_pos hphase]

/-- The responder of IK holds its static pair as it processes the first message. -/
theorem static_of_openMessage {b : Handshake} (hpattern : b.pattern = .ik)
    (hfirst : b.messageNumber = 0) (hrole : b.role = some .responder) {role : Role}
    {tokens : List Token} {s : SymmetricState} (hopen : b.openMessage = .ok (role, tokens, s)) :
    ∃ static, b.slots.localStatic = some static := by
  obtain ⟨hrole', -, before, -, hopening⟩ := openMessage_ok hopen
  obtain rfl : .responder = role := Option.some.inj (hrole.symm.trans hrole')
  rw [openingState, if_pos hfirst, hpattern, mixPremessages_eq] at hopening
  cases hown : b.slots.localStatic with
  | some static => exact ⟨static, rfl⟩
  | none =>
    have hnone : premessageKey b.slots (Role.responder == Role.responder) .s =
        .error .missingKey := by
      simp only [premessageKey, KeySlots.localStaticPublic, hown]
      rfl
    rw [hnone] at hopening
    cases hopening

/-- The responder whose message does not authenticate has learned the ephemeral key that it begins
with. -/
theorem refused_first {b : Handshake} (hpattern : b.pattern = .ik) (hfirst : b.messageNumber = 0)
    (hrole : b.role = some .responder) {received area : Bytes}
    (hfailed : (b.read received area).result = .error .cryptoFailed) :
    ∃ (static : KeyPair) (key : PublicKey), b.slots.localStatic = some static ∧
      key.bytes = received.take 32 ∧
      ∃ slots : KeySlots, slots.localStatic = some static ∧ slots.remoteEphemeral = some key ∧
        (b.read received area).state = { b with slots }.fail .cryptoFailed := by
  obtain ⟨-, role, tokens, s, hopen, hres, hstate⟩ := read_cryptoFailed hfailed
  obtain ⟨-, htokens, -⟩ := openMessage_ok hopen
  rw [nextTokens, hpattern, hfirst] at htokens
  obtain rfl : [Token.e, .es, .s, .ss] = tokens := Option.some.inj htokens
  obtain ⟨static, hstatic⟩ := static_of_openMessage hpattern hfirst hrole hopen
  obtain ⟨key, hkey, hbytes⟩ := Reading.run_first (by decide) hres
  refine ⟨static, key, hstatic, hbytes, _, ?_, hkey, hstate⟩
  exact (Reading.run_own ..).1.trans hstatic

/-- A party that awaits a reply keeps its own pairs when it gives up, and also when the reply does
not authenticate. -/
theorem given_up {a a' : Handshake} (hphase : a.phase = .read)
    (hgiven : a' = a.abandon ∨ ∃ reply area,
      (a.read reply area).result = .error .cryptoFailed ∧ a' = (a.read reply area).state) :
    ∃ (slots : KeySlots) (e : Error), a' = { a with slots }.fail e ∧
      (e = .cryptoFailed ∨ e = .handshakeFailed) ∧
      slots.localStatic = a.slots.localStatic ∧ slots.localEphemeral = a.slots.localEphemeral := by
  rcases hgiven with rfl | ⟨reply, area, hfailed, rfl⟩
  · refine ⟨a.slots, .handshakeFailed, ?_, Or.inr rfl, rfl, rfl⟩
    rw [abandon, hphase]
    rfl
  · obtain ⟨-, role, tokens, s, -, -, hstate⟩ := read_cryptoFailed hfailed
    obtain ⟨hstatic, hephemeral⟩ := Reading.run_own a.pattern role a.psk tokens area
      { slots := a.slots, symmetric := s, rest := reply }
    exact ⟨_, .cryptoFailed, hstate, Or.inl rfl, hstatic, hephemeral⟩

end Handshake

/-! ## The fallback -/

namespace Pipes

variable {pipes : Pipes}

/-- Every composite tries IK first and then XXfallback, which needs the static pairs only. -/
theorem protocols_of_mem (h : pipes ∈ Pipes.all) :
    pipes.abbreviated.pattern = .ik ∧ pipes.fallback.pattern = .xxFallback ∧
      ∀ role, pipes.fallback.needs role = { localStatic := true } := by
  have hall : ∀ pipes ∈ Pipes.all, pipes.abbreviated.pattern = .ik ∧
      pipes.fallback.pattern = .xxFallback ∧
      ∀ role ∈ Role.all, pipes.fallback.needs role = { localStatic := true } := by
    decide
  obtain ⟨hik, hxx, hneeds⟩ := hall pipes h
  exact ⟨hik, hxx, fun role => hneeds role (by cases role <;> decide)⟩

/-- A fallback starts with what it takes over from a failed attempt. -/
theorem startFallback_taken (hpipes : pipes ∈ Pipes.all) {attempt : Handshake}
    (hfailed : attempt.phase = .failed) {role : Role} {taken : KeySlots}
    (htaken : KeySlots.empty.takeOver role attempt.slots = .ok taken) (prologue : Bytes) :
    (Handshake.new pipes.fallback).startFallback attempt role prologue =
      { Handshake.new pipes.fallback with slots := taken }.start role prologue := by
  have hopen : ((Handshake.new pipes.fallback).pattern.isFallback &&
      (Handshake.new pipes.fallback).phase == .initial && attempt.phase == .failed) = true := by
    rw [hfailed]
    show (pipes.fallback.pattern.isFallback && true && true) = true
    rw [(protocols_of_mem hpipes).2.1]
    rfl
  have hslots : (Handshake.new pipes.fallback).slots.takeOver role attempt.slots = .ok taken :=
    htaken
  rw [Handshake.startFallback, if_pos hopen, hslots]

/-- An attempt that failed to authenticate or was given up can be continued, if it has come by the
ephemeral key that its role continues with; the continuation starts with what is taken over. -/
theorem startFallback_fail (hpipes : pipes ∈ Pipes.all) {h : Handshake} {role : Role}
    (hprotocol : h.protocol = pipes.abbreviated) (hrole : h.role = some role)
    {slots taken : KeySlots} {e : Error} (he : e = .cryptoFailed ∨ e = .handshakeFailed)
    (htaken : KeySlots.empty.takeOver role slots = .ok taken)
    {static : KeyPair} (hstatic : taken.localStatic = some static) (prologue : Bytes) :
    pipes.canFallBack ({ h with slots }.fail e) = true ∧
      pipes.startFallback ({ h with slots }.fail e) role prologue =
        .ok ({ Handshake.new pipes.fallback with slots := taken }.started role prologue) := by
  obtain ⟨-, -, hneeds⟩ := protocols_of_mem hpipes
  have hcan : pipes.canFallBack ({ h with slots }.fail e) = true := by
    have hsame : h.protocol.same pipes.abbreviated = true := by
      rw [hprotocol]
      exact beq_self_eq_true _
    have hcause : (some e == some Error.cryptoFailed || some e == some Error.handshakeFailed) =
        true := by
      rcases he with rfl | rfl <;> rfl
    simp only [canFallBack, Handshake.fail, hsame, hcause, hrole, Handshake.hasKey]
    cases role with
    | initiator =>
      cases hkey : slots.localEphemeral with
      | some pair => rfl
      | none =>
        simp only [KeySlots.takeOver, hkey] at htaken
        cases htaken
    | responder =>
      cases hkey : slots.remoteEphemeral with
      | some key => rfl
      | none =>
        simp only [KeySlots.takeOver, hkey] at htaken
        cases htaken
  have hstart : ({ Handshake.new pipes.fallback with slots := taken } : Handshake).start role
      prologue = ({ Handshake.new pipes.fallback with slots := taken }.started role prologue,
        .ok ()) := by
    refine Handshake.start_eq rfl ?_ (Or.inr ?_) prologue
    · show Handshake.holds _ (pipes.fallback.needs role) = true
      rw [hneeds]
      simp only [Handshake.holds, Handshake.hasKey, hstatic]
      rfl
    · show (pipes.fallback.needs role).remoteStatic = false
      rw [hneeds]
  refine ⟨hcan, ?_⟩
  rw [startFallback, if_pos hcan, startFallback_taken hpipes rfl htaken, hstart]

/-- A handshake of the fallback protocol that the initiator continues with its pairs, and one that
the responder continues with its static pair and the initiator's ephemeral key, are in step. -/
theorem inStep_fallback (hpipes : pipes ∈ Pipes.all) {k : Keys} {x y : KeyPair}
    (hx : k.static .initiator = some x) (hy : k.static .responder = some y) (prologue : Bytes) :
    InStep k .xxFallback (fun _ => none) 0
      ⟨{ Handshake.new pipes.fallback with
          slots := { localStatic := some x, localEphemeral := some (k.ephemeral .initiator) }
        }.started .initiator prologue,
        { Handshake.new pipes.fallback with
          slots := {
            localStatic := some y
            remoteEphemeral := some (k.ephemeral .initiator).publicKey }
        }.started .responder prologue⟩ := by
  let parties := Session.party ⟨
    { Handshake.new pipes.fallback with
      slots := { localStatic := some x, localEphemeral := some (k.ephemeral .initiator) } },
    { Handshake.new pipes.fallback with
      slots := {
        localStatic := some y
        remoteEphemeral := some (k.ephemeral .initiator).publicKey } }⟩
  have hxx := (protocols_of_mem hpipes).2.1
  have hholds : ∀ role, Holds k (pipes.fallback.pattern.knownBefore 0) role
      (pipes.fallback.pattern.forgetStale (parties role).slots) := by
    intro role
    rw [hxx]
    cases role with
    | initiator =>
      exact ⟨hx.symm, rfl, fun hmem => absurd hmem (by decide),
        fun hmem => absurd hmem (by decide)⟩
    | responder => exact ⟨hy.symm, rfl, fun hmem => absurd hmem (by decide), fun _ => rfl⟩
  have hprotocol : ∀ role, (parties role).protocol = pipes.fallback := by
    intro role
    cases role <;> rfl
  have hpsk : ∀ role, (parties role).psk = none := by
    intro role
    cases role <;> rfl
  have hstep := inStep_started hprotocol hpsk hholds prologue
  rw [hxx] at hstep
  exact hstep

end Pipes

/-- In every composite: let an IK initiator `a` write its first message and let an IK responder `b`
fail to authenticate one that begins with the same ephemeral key. Then the responder can fall back
at once, and the initiator once it has given up or has failed to authenticate a reply. The two are
left with the ephemeral key that has been sent, and the two messages of the fallback lead them to
agreement and to each other's static keys. -/
theorem fallback_agreement {pipes : Pipes} (hpipes : pipes ∈ Pipes.all) {a b a' : Handshake}
    (ha : a.protocol = pipes.abbreviated ∧ a.role = some .initiator ∧ a.messageNumber = 0)
    (hb : b.protocol = pipes.abbreviated ∧ b.role = some .responder ∧ b.messageNumber = 0)
    {payload area message received area' : Bytes} {entropy : Entropy}
    (hsent : (a.write payload area entropy).1.written = .ok message)
    (hfront : received.take 32 = message.take 32)
    (hfailed : (b.read received area').result = .error .cryptoFailed)
    (hgiven : a' = (a.write payload area entropy).1.state.abandon ∨ ∃ reply area'',
      ((a.write payload area entropy).1.state.read reply area'').result = .error .cryptoFailed ∧
        a' = ((a.write payload area entropy).1.state.read reply area'').state)
    (prologue : Bytes) :
    ∃ (x y e : KeyPair) (i r : Handshake),
      a.slots.localStatic = some x ∧ b.slots.localStatic = some y ∧
      (a.write payload area entropy).1.state.slots.localEphemeral = some e ∧
      message.take 32 = e.publicKey.bytes ∧
      pipes.canFallBack (b.read received area').state = true ∧
      pipes.startFallback (b.read received area').state .responder prologue = .ok r ∧
      r.phase = .write ∧ r.slots.remoteEphemeral = some e.publicKey ∧ r.slots.remoteStatic = none ∧
      pipes.canFallBack a' = true ∧
      pipes.startFallback a' .initiator prologue = .ok i ∧
      i.phase = .read ∧ i.slots.localEphemeral = some e ∧
      ∀ d₀ d₁ : Delivery,
        (∀ p ∈ [e, x], ∀ q ∈ [(KeyPair.generate d₀.entropy).1, y], p.Agrees q) →
        Session.AllFit ⟨i, r⟩ [d₀, d₁] →
        Session.Faithful ⟨i, r⟩ [d₀, d₁] ∧ (Session.run ⟨i, r⟩ [d₀, d₁]).Agreed ∧
          (Session.run ⟨i, r⟩ [d₀, d₁]).initiator.slots.remoteStatic = some y.publicKey ∧
          (Session.run ⟨i, r⟩ [d₀, d₁]).responder.slots.remoteStatic = some x.publicKey := by
  obtain ⟨hik, hxx, -⟩ := Pipes.protocols_of_mem hpipes
  obtain ⟨haprotocol, harole, hafirst⟩ := ha
  obtain ⟨hbprotocol, hbrole, hbfirst⟩ := hb
  have hapattern : a.pattern = .ik := by rw [Handshake.pattern, haprotocol, hik]
  have hbpattern : b.pattern = .ik := by rw [Handshake.pattern, hbprotocol, hik]
  obtain ⟨x, e, hx, he, symmetric, hastate⟩ := Handshake.sent_first hapattern hafirst hsent
  obtain ⟨y, key, hy, hkey, bslots, hbstatic, hbephemeral, hbstate⟩ :=
    Handshake.refused_first hbpattern hbfirst hbrole hfailed
  have hekey : key = e.publicKey := by
    have hbytes : key.bytes = e.publicKey.bytes := by rw [hkey, hfront, he]
    cases key
    cases hp : e.publicKey
    rw [hp] at hbytes
    cases hbytes
    rfl
  have haread : (a.write payload area entropy).1.state.phase = .read := by rw [hastate]
  obtain ⟨aslots, cause, rfl, hcause, hastatic, haephemeral⟩ := Handshake.given_up haread hgiven
  rw [hastate] at hastatic haephemeral ⊢
  -- what the two take over
  have htakenI : KeySlots.empty.takeOver .initiator aslots =
      .ok { localStatic := some x, localEphemeral := some e } := by
    rw [KeySlots.takeOver, haephemeral, hastatic, hx]
    rfl
  have htakenR : KeySlots.empty.takeOver .responder bslots =
      .ok { localStatic := some y, remoteEphemeral := some e.publicKey } := by
    rw [KeySlots.takeOver, hbephemeral, hbstatic, hekey]
    rfl
  obtain ⟨hcanR, hstartR⟩ := Pipes.startFallback_fail hpipes hbprotocol hbrole (Or.inl rfl)
    htakenR rfl prologue
  obtain ⟨hcanI, hstartI⟩ := Pipes.startFallback_fail (h := { a with
      slots := { a.slots with localEphemeral := some e }
      symmetric, phase := .read, messageNumber := 1 }) hpipes haprotocol harole hcause
    htakenI rfl prologue
  rw [hbstate]
  refine ⟨x, y, e, _, _, hx, hy, rfl, he, hcanR, hstartR, ?_, ?_, ?_, hcanI, hstartI, ?_, ?_,
    fun d₀ d₁ hagrees hfit => ?_⟩
  · show Handshake.phaseFor pipes.fallback.pattern .responder 0 = .write
    rw [hxx]
    rfl
  · show (pipes.fallback.pattern.forgetStale _).remoteEphemeral = _
    rw [hxx]
    rfl
  · show (pipes.fallback.pattern.forgetStale _).remoteStatic = _
    rw [hxx]
    rfl
  · show Handshake.phaseFor pipes.fallback.pattern .initiator 0 = .read
    rw [hxx]
    rfl
  · show (pipes.fallback.pattern.forgetStale _).localEphemeral = _
    rw [hxx]
    rfl
  · let k := Keys.of (some x) (some y) e (KeyPair.generate d₀.entropy).1
    have hq : Equipped k .xxFallback fun _ => none := by
      refine ⟨fun _ role => ?_, fun hpsk => absurd hpsk (by decide), hagrees⟩
      cases role with
      | initiator => exact ⟨x, rfl⟩
      | responder => exact ⟨y, rfl⟩
    have hdraws : Draws k .xxFallback 0 [d₀, d₁] := by
      refine ⟨fun _ _ _ => rfl, fun tokens htokens hmem => ?_, trivial⟩
      obtain rfl : [Token.s, .se] = tokens := Option.some.inj htokens
      exact absurd hmem (by decide)
    have hstart := Pipes.inStep_fallback (k := k) hpipes rfl rfl prologue
    obtain ⟨hfaithful, hend⟩ := inStep_run hq hstart (Nat.le_refl _) hdraws hfit
    exact ⟨hfaithful, hend.agreed, hend.learned rfl .initiator, hend.learned rfl .responder⟩

/-- Results of calls can be compared. -/
instance Except.decidableEq {ε α : Type} [DecidableEq ε] [DecidableEq α] : DecidableEq (Except ε α)
  | .ok a, .ok b => decidable_of_iff (a = b) ⟨congrArg Except.ok, Except.ok.inj⟩
  | .error a, .error b => decidable_of_iff (a = b) ⟨congrArg Except.error, Except.error.inj⟩
  | .ok _, .error _ => isFalse fun h => by cases h
  | .error _, .ok _ => isFalse fun h => by cases h

/-- An initiator that holds its own static key for the responder's. -/
theorem fallback_agreement_wrong_key :
    let x := KeyPair.ofSecret ⟨List.replicate 32 1, rfl⟩
    let y := KeyPair.ofSecret ⟨List.replicate 32 2, rfl⟩
    let a : Handshake := ({ Handshake.new .ikChaChaPolyBlake2s with
      slots := { localStatic := some x, remoteStatic := some x.publicKey } }.start .initiator [7]).1
    let b : Handshake := ({ Handshake.new .ikChaChaPolyBlake2s with
      slots := { localStatic := some y } }.start .responder [7]).1
    let sent := (a.write [] (Bytes.zeros 96) ⟨fun _ => 3⟩).1
    let ds : List Delivery := [
      ⟨[1, 2, 3], Bytes.zeros 128, Bytes.zeros 3, ⟨fun _ => 4⟩⟩,
      ⟨[], Bytes.zeros 128, [], ⟨fun _ => 5⟩⟩]
    ∃ i r, Pipes.chaChaPolyBlake2s.startFallback (b.read sent.area []).state .responder [] = .ok r ∧
      Pipes.chaChaPolyBlake2s.startFallback sent.state.abandon .initiator [] = .ok i ∧
      Session.Faithful ⟨i, r⟩ ds ∧ (Session.run ⟨i, r⟩ ds).Agreed := by
  intro x y a b sent ds
  have hpipes : Pipes.chaChaPolyBlake2s ∈ Pipes.all := by decide
  have ha : a.protocol = .ikChaChaPolyBlake2s ∧ a.role = some .initiator ∧ a.messageNumber = 0 := by
    decide +kernel
  have hb : b.protocol = .ikChaChaPolyBlake2s ∧ b.role = some .responder ∧ b.messageNumber = 0 := by
    decide +kernel
  -- the two calls of the attempt, and the pairs that are left
  have hcalls : sent.result = .ok 96 ∧ (b.read sent.area []).result = .error .cryptoFailed ∧
      sent.state.slots.localEphemeral = some (KeyPair.generate ⟨fun _ => 3⟩).1 ∧
      a.slots.localStatic = some x ∧ b.slots.localStatic = some y := by
    decide +kernel
  simp only [sent] at hcalls
  obtain ⟨hres, hfailed, he, hx, hy⟩ := hcalls
  have hsent : sent.written = .ok (sent.area.take 96) := by
    rw [Outcome.written, hres]
    rfl
  have hfront : sent.area.take 32 = (sent.area.take 96).take 32 := by
    rw [List.take_take]
    rfl
  obtain ⟨x', y', e, i, r, hx', hy', he', -, -, hr, -, -, -, -, hi, -, -, hagree⟩ :=
    fallback_agreement hpipes ha hb hsent hfront hfailed (Or.inl rfl) []
  rw [hx] at hx'
  rw [hy] at hy'
  rw [he] at he'
  have hagrees : ∀ p ∈ [e, x'], ∀ q ∈ [(KeyPair.generate ⟨fun _ => 4⟩).1, y'], p.Agrees q := by
    rw [← Option.some.inj he', ← Option.some.inj hx', ← Option.some.inj hy']
    decide +kernel
  have hfit : Session.AllFit ⟨i, r⟩ ds := Session.allFit_of_ample (by decide +kernel) _
  obtain ⟨hfaithful, hagreed, -, -⟩ := hagree _ _ hagrees hfit
  exact ⟨i, r, hr, hi, hfaithful, hagreed⟩

end NoiseChannel
