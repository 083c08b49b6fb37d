import NoiseChannel.Proofs.Failed
import NoiseChannel.Proofs.Fallback
import NoiseChannel.Proofs.Transcript

/-!
# Attempts that can be continued

Whether a failed IK attempt can be continued is asked of its protocol, its failure and one ephemeral
key, while the continuation needs the static pair as well. Keys may change until the first message
is through. From then on a party holds its static pair, since the initiator has sent it and the
responder has hashed it: `Seeded` says so of an IK handshake, and every call keeps it
(`Seeded.after`). So the answer is right but for an initiator that has removed the pair and given up
before its first message.
-/

namespace NoiseChannel

namespace Handshake

/-! ## The invariant -/

/-- What an IK handshake holds of the keys that a continuation needs. -/
structure Seeded (h : Handshake) : Prop where
  /-- As long as keys may change, no message is through and nothing has been learned from one. -/
  fresh : h.checkKeysMutable = .ok () → h.messageNumber = 0 ∧ h.slots.remoteEphemeral = none
  /-- Who has processed a message, or some of one, holds its static pair until it is cleared. -/
  static : h.messageNumber ≠ 0 ∨ h.slots.remoteEphemeral ≠ none →
    h.hasKey .localStatic = true ∨ h.phase = .failed ∧ h.slots = .empty

theorem seeded_new (protocol : Protocol) : Seeded (new protocol) :=
  ⟨fun _ => ⟨rfl, rfl⟩, fun hlearned => absurd hlearned (by simp [new, KeySlots.empty])⟩

theorem seeded_clear (h : Handshake) : Seeded h.clear :=
  ⟨nofun, fun _ => Or.inr ⟨rfl, rfl⟩⟩

namespace Seeded

variable {h h' : Handshake}

/-- Until a message has been read there is nothing to hold a static pair for. -/
theorem of_fresh (hn : h.messageNumber = 0) (hremote : h.slots.remoteEphemeral = none) : Seeded h :=
  ⟨fun _ => ⟨hn, hremote⟩, fun hlearned => absurd hlearned (by simp [hn, hremote])⟩

/-- Once keys are fixed it is enough to hold the static pair. -/
theorem of_held (hheld : h.hasKey .localStatic = true) (hfixed : h.checkKeysMutable ≠ .ok ()) :
    Seeded h :=
  ⟨fun hok => absurd hok hfixed, fun _ => Or.inl hheld⟩

theorem held (hs : Seeded h) (hphase : h.phase ≠ .failed)
    (hlearned : h.messageNumber ≠ 0 ∨ h.slots.remoteEphemeral ≠ none) :
    h.hasKey .localStatic = true :=
  (hs.static hlearned).resolve_right fun hcleared => hphase hcleared.1

/-- Without its static pair a handshake that has not been cleared has not got beyond the first
message. -/
theorem of_lost (hs : Seeded h) (hlost : h.hasKey .localStatic = false)
    (hslots : h.slots ≠ .empty) : h.messageNumber = 0 ∧ h.slots.remoteEphemeral = none := by
  have hnothing : ¬ (h.messageNumber ≠ 0 ∨ h.slots.remoteEphemeral ≠ none) := by
    intro hlearned
    rcases hs.static hlearned with hheld | ⟨-, hcleared⟩
    · rw [hlost] at hheld
      cases hheld
    · exact hslots hcleared
  simpa using hnothing

/-- Failing costs no static pair, if the peer's ephemeral key has not just been learned. -/
theorem fail (hs : Seeded h) (hphase : h.phase ≠ .failed) (slots : KeySlots)
    (hlocal : slots.localStatic = h.slots.localStatic)
    (hremote : slots.remoteEphemeral = none ∨ slots.remoteEphemeral = h.slots.remoteEphemeral)
    (e : Error) : Seeded ({ h with slots }.fail e) := by
  refine ⟨nofun, fun hlearned => Or.inl ?_⟩
  have hbefore : h.messageNumber ≠ 0 ∨ h.slots.remoteEphemeral ≠ none := by
    rcases hlearned with hn | hkey
    · exact Or.inl hn
    · rcases hremote with hnone | hsame
      · exact absurd hnone hkey
      · exact Or.inr (hsame ▸ hkey)
  have hheld : h.slots.localStatic.isSome = true := hs.held hphase hbefore
  show slots.localStatic.isSome = true
  rw [hlocal]
  exact hheld

theorem refused (hs : Seeded h) (hphase : h.phase ≠ .failed) {turn : Phase} {e : Error}
    (href : h.refusal? turn = some (h', e)) : Seeded h' := by
  rcases refusal_cases href with rfl | rfl
  · exact hs
  · exact hs.fail hphase h.slots rfl (Or.inr rfl) e

/-- A message that goes through fixes the keys. -/
theorem advance {slots : KeySlots} {symmetric : Option SymmetricState}
    (hheld : slots.localStatic.isSome = true) : Seeded { h with slots, symmetric }.advance :=
  of_held hheld (keys_fixed_advance _)

/-! ## One call -/

theorem keys (hs : Seeded h) {call : Call} (hkeys : call.changesKeys = true) :
    Seeded (h.after call) := by
  cases hcheck : h.checkKeysMutable with
  | error e =>
    rw [after_keys_fixed hkeys hcheck]
    exact hs
  | ok u =>
    obtain ⟨hn, hnone⟩ := hs.fresh hcheck
    obtain ⟨slots, psk, hafter, -⟩ := after_keys h hkeys
    have hremote : (h.after call).slots.remoteEphemeral = none := by
      rcases (ephemerals_after_keys hkeys hcheck).2 with hkey | hkey
      · exact hkey
      · exact hkey.trans hnone
    rw [hafter] at hremote ⊢
    exact of_fresh hn hremote

theorem start (hik : h.pattern = .ik) (hs : Seeded h) (hphase : h.phase ≠ .failed) (role : Role)
    (prologue : Bytes) : Seeded (h.start role prologue).1 := by
  have hforget : h.pattern.forgetStale h.slots = h.slots.removeEphemerals := by rw [hik]; rfl
  rcases h.start_cases role prologue with ⟨-, -, hstart⟩ | ⟨h', e, hstart, ⟨-, rfl⟩ | rfl⟩
  · rw [hstart, started, hforget]
    exact of_fresh rfl rfl
  · rw [hstart]
    exact hs
  · rw [hstart, hforget]
    exact hs.fail hphase h.slots.removeEphemerals rfl (Or.inl rfl) e

theorem startFallback (hik : h.pattern = .ik) (hs : Seeded h) (hphase : h.phase ≠ .failed)
    (attempt : Handshake) (role : Role) (prologue : Bytes) :
    Seeded (h.startFallback attempt role prologue).1 := by
  rcases h.startFallback_cases attempt role prologue with
    ⟨slots, hpattern, -⟩ | ⟨h', e, hstart, rfl | rfl⟩
  · cases hik.symm.trans hpattern
  · rw [hstart]
    exact hs
  · rw [hstart]
    exact hs.fail hphase h.slots rfl (Or.inr rfl) e

theorem addPrologue (hco : Coherent h) (hs : Seeded h) (piece : Bytes) :
    Seeded (h.settle (h.addPrologue piece)) := by
  by_cases hopen : (h.phase = .write ∨ h.phase = .read) ∧ h.messageNumber = 0
  · obtain ⟨s, hadd, -⟩ := hco.addPrologue_ok hopen.1 hopen.2 piece
    rw [hadd]
    exact ⟨hs.fresh, hs.static⟩
  · obtain ⟨e, hadd⟩ := Coherent.addPrologue_error hopen piece
    rw [hadd]
    exact hs

/-- The first message of IK carries the static key of its writer. -/
theorem write (hik : h.pattern = .ik) (hs : Seeded h) (hphase : h.phase ≠ .failed)
    (payload area : Bytes) (entropy : Entropy) :
    Seeded (h.write payload area entropy).1.state := by
  have hwrites := h.writes payload area entropy
  generalize h.write payload area entropy = out at hwrites ⊢
  cases hwrites with
  | refused href => exact hs.refused hphase href
  | tooSmall => exact hs
  | @unopened e => exact hs.fail hphase h.slots rfl (Or.inr rfl) e
  | @stopped role tokens s stop _ _ _ hrun =>
    have hslots := Writing.reached_run_slots h.pattern role h.psk tokens payload
      { slots := h.slots, symmetric := s, written := []
        free := area.take (h.nextOverhead + payload.length), entropy }
    rw [hrun] at hslots
    have hlocal : stop.reached.slots.localStatic = h.slots.localStatic :=
      (congrArg KeySlots.localStatic hslots :)
    have hremote : stop.reached.slots.remoteEphemeral = h.slots.remoteEphemeral :=
      (congrArg KeySlots.remoteEphemeral hslots :)
    exact hs.fail hphase stop.reached.slots hlocal (Or.inr hremote) stop.error
  | @through role tokens s w _ _ hopen hrun =>
    have hslots := Writing.reached_run_slots h.pattern role h.psk tokens payload
      { slots := h.slots, symmetric := s, written := []
        free := area.take (h.nextOverhead + payload.length), entropy }
    rw [hrun] at hslots
    have hheld : h.slots.localStatic.isSome = true := by
      by_cases hn : h.messageNumber = 0
      · obtain ⟨-, htokens, -⟩ := openMessage_ok hopen
        rw [nextTokens, hik, hn] at htokens
        obtain rfl : [Token.e, .es, .s, .ss] = tokens := Option.some.inj htokens
        exact Option.isSome_iff_exists.mpr (Writing.run_static (by decide) hrun)
      · exact hs.held hphase (Or.inl hn)
    refine advance ?_
    have hlocal : w.slots.localStatic = h.slots.localStatic :=
      (congrArg KeySlots.localStatic hslots :)
    rw [hlocal]
    exact hheld

/-- The reader of the first message of IK uses its own static key before it takes any of it. -/
theorem read (hik : h.pattern = .ik) (hco : Coherent h) (hs : Seeded h) (hphase : h.phase ≠ .failed)
    (message area : Bytes) : Seeded (h.read message area).state := by
  have hreads := h.reads message area
  generalize h.read message area = out at hreads ⊢
  cases hreads with
  | refused href => exact hs.refused hphase href
  | short => exact hs.fail hphase h.slots rfl (Or.inr rfl) .badMessage
  | tooSmall => exact hs
  | @unopened e => exact hs.fail hphase h.slots rfl (Or.inr rfl) e
  | @processed role tokens s o hdue _ hopen hrun =>
    have hheld : h.slots.localStatic.isSome = true := by
      by_cases hn : h.messageNumber = 0
      · obtain ⟨hrole, -⟩ := openMessage_ok hopen
        have hresponder : role = .responder := by
          have hturn := hco.write_iff (Or.inr hdue) role hrole
          rw [hdue, hik, hn] at hturn
          cases role with
          | initiator => exact absurd (hturn.mpr rfl) (by decide)
          | responder => rfl
        rw [hresponder] at hrole
        exact Option.isSome_iff_exists.mpr (static_of_openMessage hik hn hrole hopen)
      · exact hs.held hphase (Or.inl hn)
    have hkept : o.state.slots.localStatic.isSome = true := by
      have hown := (Reading.run_own h.pattern role h.psk tokens area
        { slots := h.slots, symmetric := s, rest := message }).1
      rw [hrun, hown]
      exact hheld
    dsimp only [settleRead]
    split
    · exact advance hkept
    · exact of_held hkept nofun

theorem abandon (hs : Seeded h) (hphase : h.phase ≠ .failed) : Seeded h.abandon := by
  unfold Handshake.abandon
  split
  · exact hs.fail hphase h.slots rfl (Or.inr rfl) _
  · exact hs

theorem split (hco : Coherent h) (hs : Seeded h) : Seeded h.split.1 := by
  by_cases hphase : h.phase = .split
  · obtain ⟨role, s, -, -, hsplit⟩ := hco.split_ok hphase
    rw [hsplit]
    have hn : h.messageNumber ≠ 0 := by
      rw [hco.number_eq (Or.inl hphase)]
      cases h.pattern <;> decide
    exact of_held (hs.held (by rw [hphase]; decide) (Or.inl hn)) nofun
  · rw [Coherent.split_error hphase]
    exact hs

/-- Every call keeps it. -/
theorem after (hik : h.pattern = .ik) (hco : Coherent h) (hs : Seeded h) (call : Call) :
    Seeded (h.after call) := by
  by_cases hcall : call = .clear
  · rw [hcall]
    exact seeded_clear h
  · by_cases hphase : h.phase = .failed
    · rw [(after_failed hphase hcall).1]
      exact hs
    · cases call with
      | setLocalKeyPair | setLocalPrivateKey | generateLocalKeyPair | setLocalEphemeral
      | setRemotePublicKey | setPresharedKey | removeKey => exact hs.keys rfl
      | start role prologue => exact hs.start hik hphase role prologue
      | startFallback attempt role prologue =>
        exact hs.startFallback hik hphase attempt role prologue
      | addPrologue piece => exact hs.addPrologue hco piece
      | write payload area entropy => exact hs.write hik hphase payload area entropy
      | read message area => exact hs.read hik hco hphase message area
      | abandon => exact hs.abandon hphase
      | split => exact hs.split hco
      | clear => exact absurd rfl hcall

/-- So does every sequence of calls. -/
theorem afterAll (hik : h.pattern = .ik) (hco : Coherent h) (hs : Seeded h) (calls : List Call) :
    Seeded (h.afterAll calls) := by
  induction calls generalizing h with
  | nil => exact hs
  | cons call calls ih =>
    have hpattern : (h.after call).pattern = .ik :=
      (congrArg Protocol.pattern (h.moves call).protocol_eq).trans hik
    exact ih hpattern (coherent_after hco call) (hs.after hik hco call)

end Seeded

/-- A start without the static pair is refused where the protocol needs one. -/
theorem start_without_static {h : Handshake} {role : Role} (hphase : h.phase = .initial)
    (hneeds : (h.protocol.needs role).localStatic = true) (hstatic : h.slots.localStatic = none)
    (prologue : Bytes) : (h.start role prologue).2 = .error .missingKey := by
  have hlacks : { h with slots := h.pattern.forgetStale h.slots }.holds (h.protocol.needs role) =
      false := by
    have hlocal : (h.pattern.forgetStale h.slots).localStatic = none := by
      rw [← hstatic]
      cases h.pattern <;> rfl
    simp only [holds, hasKey, hlocal, hneeds]
    rfl
  have hnot : ¬ { h with slots := h.pattern.forgetStale h.slots }.holds (h.protocol.needs role) =
      true := by
    rw [hlacks]
    decide
  unfold Handshake.start
  split
  · exact congrArg Prod.snd (if_neg hnot)
  · rename_i hfailed
    cases hphase.symm.trans hfailed
  · exact absurd hphase ‹_›

end Handshake

/-! ## The answer -/

namespace Pipes

variable {pipes : Pipes} {attempt : Handshake} {role : Role}

/-- The ephemeral key of a failed attempt that a party in `role` continues with. -/
def carriedKey : Role → KeyId
  | .initiator => .localEphemeral
  | .responder => .remoteEphemeral

/-- What is asked of an attempt that is said to be continuable. -/
theorem canFallBack_cases (hcan : pipes.canFallBack attempt = true) :
    attempt.protocol.name = pipes.abbreviated.name ∧ attempt.phase = .failed ∧
      (∃ e, attempt.failure = some e ∧ (e = .cryptoFailed ∨ e = .handshakeFailed)) ∧
      ∃ role, attempt.role = some role ∧ attempt.hasKey (carriedKey role) = true := by
  simp only [canFallBack, Bool.and_eq_true, Bool.or_eq_true, beq_iff_eq] at hcan
  obtain ⟨⟨⟨hname, hphase⟩, hcause⟩, hkey⟩ := hcan
  refine ⟨beq_iff_eq.mp hname, hphase, ?_, ?_⟩
  · rcases hcause with hcause | hcause
    · exact ⟨_, hcause, Or.inl rfl⟩
    · exact ⟨_, hcause, Or.inr rfl⟩
  · cases hrole : attempt.role with
    | none =>
      rw [hrole] at hkey
      cases hkey
    | some role =>
      rw [hrole] at hkey
      cases role <;> exact ⟨_, rfl, hkey⟩

theorem slots_ne_empty (hkey : attempt.hasKey (carriedKey role) = true) :
    attempt.slots ≠ .empty := by
  intro hempty
  cases role with
  | initiator =>
    change attempt.slots.localEphemeral.isSome = true at hkey
    rw [hempty] at hkey
    cases hkey
  | responder =>
    change attempt.slots.remoteEphemeral.isSome = true at hkey
    rw [hempty] at hkey
    cases hkey

/-- The ephemeral key asked for is what there is to take over; the static pair comes along. -/
theorem takeOver_ok (hkey : attempt.hasKey (carriedKey role) = true) :
    ∃ taken, KeySlots.empty.takeOver role attempt.slots = .ok taken ∧
      taken.localStatic = attempt.slots.localStatic := by
  cases role with
  | initiator =>
    obtain ⟨pair, hpair⟩ := Option.isSome_iff_exists.mp hkey
    refine ⟨{ localStatic := attempt.slots.localStatic, localEphemeral := some pair }, ?_, rfl⟩
    rw [KeySlots.takeOver, hpair]
    rfl
  | responder =>
    obtain ⟨key, hkey⟩ := Option.isSome_iff_exists.mp hkey
    refine ⟨{ localStatic := attempt.slots.localStatic, remoteEphemeral := some key }, ?_, rfl⟩
    rw [KeySlots.takeOver, hkey]
    rfl

/-- Without its static pair an attempt has no continuation. -/
theorem startFallback_missing (hpipes : pipes ∈ Pipes.all) (hcan : pipes.canFallBack attempt = true)
    {taken : KeySlots} (htaken : KeySlots.empty.takeOver role attempt.slots = .ok taken)
    (hstatic : taken.localStatic = none) (prologue : Bytes) :
    pipes.startFallback attempt role prologue = .error .missingKey := by
  obtain ⟨-, -, hneeds⟩ := protocols_of_mem hpipes
  obtain ⟨-, hfailed, -⟩ := canFallBack_cases hcan
  rw [startFallback, if_pos hcan, startFallback_taken hpipes hfailed htaken]
  generalize hfresh : { Handshake.new pipes.fallback with slots := taken } = fresh
  have hstart : (fresh.start role prologue).2 = .error .missingKey := by
    refine Handshake.start_without_static ?_ ?_ ?_ prologue
    · rw [← hfresh]
      rfl
    · rw [← hfresh]
      exact congrArg KeyNeeds.localStatic (hneeds role)
    · rw [← hfresh]
      exact hstatic
  generalize fresh.start role prologue = out at hstart
  obtain ⟨h', r⟩ := out
  cases hstart
  rfl

/-- An attempt that is said to be continuable is continued, in the role that it had, with its static
pair; without one, the continuation is refused. -/
theorem startFallback_eq (hpipes : pipes ∈ Pipes.all) (hco : attempt.Coherent)
    (hprotocol : attempt.protocol = pipes.abbreviated) (hcan : pipes.canFallBack attempt = true)
    (hrole : attempt.role = some role) (prologue : Bytes) :
    ∃ taken, pipes.startFallback attempt role prologue =
      if attempt.hasKey .localStatic then
        .ok ({ Handshake.new pipes.fallback with slots := taken }.started role prologue)
      else .error .missingKey := by
  obtain ⟨-, hphase, ⟨e, hfailure, he⟩, role', hrole', hkey⟩ := canFallBack_cases hcan
  obtain rfl : role' = role := Option.some.inj (hrole'.symm.trans hrole)
  obtain ⟨taken, htaken, hsame⟩ := takeOver_ok hkey
  refine ⟨taken, ?_⟩
  cases hstatic : attempt.slots.localStatic with
  | none =>
    rw [startFallback_missing hpipes hcan htaken (hsame.trans hstatic), Handshake.hasKey, hstatic]
    rfl
  | some static =>
    have hsymmetric : attempt.symmetric = none := hco.symmetric_none (by simp [hphase])
    -- a failed handshake is one that has failed for the reason that it gives
    have heq : attempt = { attempt with slots := attempt.slots }.fail e := by
      show attempt = { attempt with symmetric := none, phase := .failed, failure := some e }
      rw [← hsymmetric, ← hphase, ← hfailure]
    have hstart := (startFallback_fail hpipes hprotocol hrole he htaken (hsame.trans hstatic)
      prologue).2
    rw [← heq] at hstart
    rw [hstart, Handshake.hasKey, hstatic]
    rfl

/-- What it means that an attempt is said to be continuable, in any composite and whatever calls
have been made on it. With its static pair it is continued in the role that it had, and the
initiator awaits the first message. Without the pair the continuation is refused, but this happens
only to an initiator that has not got its own first message out. -/
theorem canFallBack_starts (hpipes : pipes ∈ Pipes.all) {protocol : Protocol}
    (hregistered : protocol ∈ Protocol.registry) (calls : List Handshake.Call)
    (hcan : pipes.canFallBack ((Handshake.new protocol).afterAll calls) = true) (prologue : Bytes) :
    let failed := (Handshake.new protocol).afterAll calls
    ∃ role, failed.role = some role ∧
      (failed.hasKey .localStatic = true → ∃ h, pipes.startFallback failed role prologue = .ok h ∧
        h.phase = match role with
          | .initiator => .read
          | .responder => .write) ∧
      (failed.hasKey .localStatic = false → role = .initiator ∧ failed.messageNumber = 0 ∧
        pipes.startFallback failed role prologue = .error .missingKey) := by
  intro failed
  obtain ⟨hik, hxx, -⟩ := protocols_of_mem hpipes
  obtain ⟨hname, -, -, role, hrole, hkey⟩ := canFallBack_cases hcan
  have hkept : failed.protocol = protocol := Handshake.protocol_afterAll _ calls
  have hprotocol : protocol = pipes.abbreviated := by
    have hall : ∀ pipes ∈ Pipes.all, pipes.abbreviated ∈ Protocol.registry := by decide
    exact Protocol.eq_of_name hregistered (hall pipes hpipes) (hkept ▸ hname)
  have hco : failed.Coherent :=
    Handshake.coherent_afterAll (Handshake.coherent_new protocol) calls
  have hseeded : failed.Seeded := by
    refine (Handshake.seeded_new protocol).afterAll ?_ (Handshake.coherent_new protocol) calls
    rw [hprotocol]
    exact hik
  obtain ⟨taken, hstart⟩ :=
    startFallback_eq hpipes hco (hkept.trans hprotocol) hcan hrole prologue
  refine ⟨role, hrole, fun hheld => ?_, fun hlost => ?_⟩
  · rw [hheld, if_pos rfl] at hstart
    refine ⟨_, hstart, ?_⟩
    show Handshake.phaseFor pipes.fallback.pattern role 0 = _
    rw [hxx]
    cases role <;> rfl
  · rw [hlost] at hstart
    obtain ⟨hn, hremote⟩ := hseeded.of_lost hlost (slots_ne_empty hkey)
    refine ⟨?_, hn, hstart⟩
    cases role with
    | initiator => rfl
    | responder =>
      change failed.slots.remoteEphemeral.isSome = true at hkey
      rw [hremote] at hkey
      cases hkey

/-- An initiator that has set its keys and gives up before its first message can continue. -/
theorem canFallBack_starts_early :
    let pair := KeyPair.ofSecret ⟨Bytes.zeros 32, rfl⟩
    let calls : List Handshake.Call := [.setLocalKeyPair pair, .setRemotePublicKey pair.publicKey,
      .start .initiator [], .setLocalEphemeral pair, .abandon]
    let failed := (Handshake.new .ikChaChaPolyBlake2s).afterAll calls
    chaChaPolyBlake2s.canFallBack failed = true ∧
      ∃ h, chaChaPolyBlake2s.startFallback failed .initiator [0] = .ok h ∧ h.phase = .read := by
  intro pair calls failed
  have hcan : chaChaPolyBlake2s.canFallBack failed = true := by decide +kernel
  obtain ⟨role, hrole, hstarts, -⟩ :=
    canFallBack_starts (by decide) (by decide : .ikChaChaPolyBlake2s ∈ Protocol.registry) calls hcan
      [0]
  obtain rfl : .initiator = role := Option.some.inj hrole
  exact ⟨hcan, hstarts rfl⟩

/-- If it has removed its static pair meanwhile, it is told that it can. -/
theorem canFallBack_without_static :
    let pair := KeyPair.ofSecret ⟨Bytes.zeros 32, rfl⟩
    let calls : List Handshake.Call := [.setLocalKeyPair pair, .setRemotePublicKey pair.publicKey,
      .start .initiator [], .setLocalEphemeral pair, .removeKey .localStatic, .abandon]
    let failed := (Handshake.new .ikChaChaPolyBlake2s).afterAll calls
    chaChaPolyBlake2s ∈ Pipes.all ∧ chaChaPolyBlake2s.canFallBack failed = true ∧
      failed.role = some .initiator ∧
      chaChaPolyBlake2s.startFallback failed .initiator [0] = .error .missingKey := by
  decide +kernel

end Pipes

end NoiseChannel
