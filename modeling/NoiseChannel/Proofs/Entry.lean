import NoiseChannel.Proofs.Failed
import NoiseChannel.Proofs.Moves

/-!
# How a handshake is entered

A handshake leaves its initial phase for good, and it gets underway by a call that either starts it
afresh or continues a failed attempt. By induction over the calls that have been made, exactly one
such call has succeeded on a handshake that is underway (`entered_by_one`). Only a handshake of a
fallback pattern can be entered from a failed attempt, but it can be started afresh as well.
-/

namespace NoiseChannel

/-- Whether a handshake in this phase is underway or through. -/
def Phase.entered : Phase → Bool
  | .write | .read | .split | .finished => true
  | .initial | .failed => false

namespace Handshake

/-! ## Calls that enter a handshake -/

/-- Whether a call starts a handshake afresh. -/
def Call.startsAfresh : Call → Bool
  | .start .. => true
  | .setLocalKeyPair _ | .setLocalPrivateKey _ | .generateLocalKeyPair _ | .setLocalEphemeral _
  | .setRemotePublicKey _ | .setPresharedKey _ | .removeKey _ | .startFallback .. | .addPrologue _
  | .write .. | .read .. | .abandon | .split | .clear => false

/-- Whether a call starts a handshake as the continuation of another one. -/
def Call.fallsBack : Call → Bool
  | .startFallback .. => true
  | .setLocalKeyPair _ | .setLocalPrivateKey _ | .generateLocalKeyPair _ | .setLocalEphemeral _
  | .setRemotePublicKey _ | .setPresharedKey _ | .removeKey _ | .start .. | .addPrologue _
  | .write .. | .read .. | .abandon | .split | .clear => false

/-- Whether a call starts a handshake, in one way or the other. -/
def Call.opens (call : Call) : Bool := call.startsAfresh || call.fallsBack

theorem Call.fallsBack_iff {call : Call} (hopens : call.opens = true) :
    call.fallsBack = true ↔ ¬ call.startsAfresh = true := by
  cases call with
  | start => exact ⟨nofun, fun hnot => absurd rfl hnot⟩
  | startFallback => exact ⟨fun _ => nofun, fun _ => rfl⟩
  | setLocalKeyPair | setLocalPrivateKey | generateLocalKeyPair | setLocalEphemeral
  | setRemotePublicKey | setPresharedKey | removeKey | addPrologue | write | read | abandon | split
  | clear => cases hopens

/-- Whether one of the calls made in turn on `h` is of a kind and succeeds. -/
def Succeeds (h : Handshake) (kind : Call → Bool) : List Call → Prop
  | [] => False
  | call :: calls =>
    kind call = true ∧ h.answer call = .ok () ∨ (h.after call).Succeeds kind calls

section Step

variable {h : Handshake} {call : Call}

theorem start_enters {role : Role} {prologue : Bytes} (hok : (h.start role prologue).2 = .ok ()) :
    h.phase = .initial ∧ (h.start role prologue).1.phase.entered = true := by
  rcases h.start_cases role prologue with ⟨hphase, -, hstart⟩ | ⟨h', e, hstart, -⟩
  · rw [hstart]
    rcases phaseFor_due h.pattern role 0 with hdue | hdue <;>
      exact ⟨hphase, congrArg Phase.entered hdue⟩
  · rw [hstart] at hok
    cases hok

/-- A call that starts a handshake finds it in its initial phase and gets it underway; if the call
falls back, the pattern is one that continues another handshake. -/
theorem opens_enters (hopens : call.opens = true) (hok : h.answer call = .ok ()) :
    h.phase = .initial ∧ (h.after call).phase.entered = true ∧
      (call.fallsBack = true → h.pattern.isFallback = true) := by
  cases call with
  | start role prologue =>
    obtain ⟨hphase, hentered⟩ := start_enters hok
    exact ⟨hphase, hentered, nofun⟩
  | startFallback attempt role prologue =>
    rw [answer] at hok
    rw [after]
    rcases h.startFallback_cases attempt role prologue with
      ⟨slots, hpattern, hphase, -, hstart⟩ | ⟨h', e, hstart, -⟩
    · rw [hstart] at hok ⊢
      exact ⟨hphase, (start_enters hok).2, fun _ => by rw [hpattern]; rfl⟩
    · rw [hstart] at hok
      cases hok
  | setLocalKeyPair | setLocalPrivateKey | generateLocalKeyPair | setLocalEphemeral
  | setRemotePublicKey | setPresharedKey | removeKey | addPrologue | write | read | abandon | split
  | clear => cases hopens

/-- What adds an opening to what is said in a handshake is a call that starts it. -/
theorem opens_of_event {prologue : Bytes} (hevent : h.event call = .opened prologue) :
    call.opens = true ∧ h.answer call = .ok () := by
  cases call with
  | start | startFallback =>
    obtain ⟨u, hok, -⟩ := Event.ofResult_eq hevent nofun
    exact ⟨rfl, hok⟩
  | addPrologue | write | read =>
    obtain ⟨_, -, hsaid⟩ := Event.ofResult_eq hevent nofun
    cases hsaid
  | setLocalKeyPair | setLocalPrivateKey | generateLocalKeyPair | setLocalEphemeral
  | setRemotePublicKey | setPresharedKey | removeKey | abandon | split | clear => cases hevent

theorem Moves.entered {event : Event} {h' : Handshake} (hmoves : Moves h call event h')
    (hentered : h'.phase.entered = true) :
    h.phase.entered = true ∨ ∃ prologue, event = .opened prologue := by
  cases hmoves with
  | still | rekeyed | added => exact Or.inl hentered
  | failed _ hphase _ =>
    rw [hphase] at hentered
    cases hentered
  | started _ => exact Or.inr ⟨_, rfl⟩
  | written hphase _ _ => exact Or.inl (by rw [hphase]; rfl)
  | read hphase _ _ _ => exact Or.inl (by rw [hphase]; rfl)
  | split hphase _ => exact Or.inl (by rw [hphase]; rfl)

/-- Nothing leads back to the initial phase. -/
theorem Moves.left_initial {event : Event} {h' : Handshake} (hmoves : Moves h call event h')
    (hleft : h.phase ≠ .initial) : h'.phase ≠ .initial := by
  cases hmoves with
  | still | rekeyed | added => exact hleft
  | failed _ hphase _ =>
    rw [hphase]
    decide
  | started hphase => exact absurd hphase hleft
  | written | read =>
    rcases phase_advance _ with hphase | hphase | hphase <;> rw [hphase] <;> decide
  | split => exact nofun

/-- A call that does not start a handshake leaves it in its initial phase, or makes it fail. -/
theorem initial_of_not_opens (hinitial : h.phase = .initial)
    (hnot : ¬ (call.opens = true ∧ h.answer call = .ok ())) :
    (h.after call).phase = .initial ∨ (h.after call).phase = .failed := by
  have hidle : ¬ (h.after call).phase.entered = true := by
    intro hentered
    rcases (h.moves call).entered hentered with hunder | ⟨prologue, hevent⟩
    · rw [hinitial] at hunder
      cases hunder
    · exact hnot (opens_of_event hevent)
  cases hphase : (h.after call).phase with
  | initial => exact Or.inl rfl
  | failed => exact Or.inr rfl
  | write | read | split | finished => exact absurd (congrArg Phase.entered hphase) hidle

end Step

/-! ## Runs -/

section Run

variable {h : Handshake} {calls : List Call}

/-- Once the initial phase has been left, no call starts the handshake any more. -/
theorem not_succeeds_of_left {kind : Call → Bool}
    (hkind : ∀ call, kind call = true → call.opens = true) (hleft : h.phase ≠ .initial) :
    ¬ h.Succeeds kind calls := by
  induction calls generalizing h with
  | nil => exact id
  | cons call calls ih =>
    rintro (⟨hcall, hok⟩ | hlater)
    · exact hleft (opens_enters (hkind call hcall) hok).1
    · exact ih ((h.moves call).left_initial hleft) hlater

theorem opens_of_startsAfresh (call : Call) (hcall : call.startsAfresh = true) :
    call.opens = true := by
  rw [Call.opens, hcall, Bool.true_or]

theorem opens_of_fallsBack (call : Call) (hcall : call.fallsBack = true) : call.opens = true := by
  rw [Call.opens, hcall, Bool.or_true]

/-- A handshake that is underway has been started by one call, either afresh or from a failed
attempt. -/
theorem entered_by_one (hinitial : h.phase = .initial)
    (hentered : (h.afterAll calls).phase.entered = true) :
    h.Succeeds Call.fallsBack calls ↔ ¬ h.Succeeds Call.startsAfresh calls := by
  induction calls generalizing h with
  | nil =>
    change h.phase.entered = true at hentered
    rw [hinitial] at hentered
    cases hentered
  | cons call calls ih =>
    change ((h.after call).afterAll calls).phase.entered = true at hentered
    by_cases hcall : call.opens = true ∧ h.answer call = .ok ()
    · -- this is the call, and none after it is
      obtain ⟨hopens, hok⟩ := hcall
      have hleft : (h.after call).phase ≠ .initial := by
        intro hphase
        have hunder := (opens_enters hopens hok).2.1
        rw [hphase] at hunder
        cases hunder
      have hstart : ¬ (h.after call).Succeeds Call.startsAfresh calls :=
        not_succeeds_of_left opens_of_startsAfresh hleft
      have hfallback : ¬ (h.after call).Succeeds Call.fallsBack calls :=
        not_succeeds_of_left opens_of_fallsBack hleft
      simp only [Succeeds, hok, hstart, hfallback, and_true, or_false]
      exact Call.fallsBack_iff hopens
    · have hlater : ∀ kind : Call → Bool, (∀ call, kind call = true → call.opens = true) →
          (h.Succeeds kind (call :: calls) ↔ (h.after call).Succeeds kind calls) :=
        fun kind hkind => or_iff_right fun hfirst => hcall ⟨hkind call hfirst.1, hfirst.2⟩
      rw [hlater _ opens_of_startsAfresh, hlater _ opens_of_fallsBack]
      rcases initial_of_not_opens hinitial hcall with hphase | hphase
      · exact ih hphase hentered
      · rw [phase_afterAll_failed hphase] at hentered
        cases hentered

/-- Only a fallback pattern is entered from a failed attempt. -/
theorem isFallback_of_succeeds (hfallback : h.Succeeds Call.fallsBack calls) :
    h.pattern.isFallback = true := by
  induction calls generalizing h with
  | nil => exact hfallback.elim
  | cons call calls ih =>
    rcases hfallback with ⟨hcall, hok⟩ | hlater
    · exact (opens_enters (opens_of_fallsBack call hcall) hok).2.2 hcall
    · have hpattern : (h.after call).pattern = h.pattern :=
        congrArg Protocol.pattern (h.moves call).protocol_eq
      rw [← hpattern]
      exact ih hlater

end Run

/-- How a handshake of any protocol has got underway, after any calls: it has been entered by
falling back from another handshake exactly if no call has started it afresh. If its pattern
continues no other handshake, then a call has started it. -/
theorem entered_from_attempt_iff {protocol : Protocol} {calls : List Call}
    (hentered : ((new protocol).afterAll calls).phase.entered = true) :
    ((new protocol).Succeeds Call.fallsBack calls ↔
        ¬ (new protocol).Succeeds Call.startsAfresh calls) ∧
      (protocol.pattern.isFallback = false → (new protocol).Succeeds Call.startsAfresh calls) := by
  have hone := entered_by_one (h := new protocol) rfl hentered
  refine ⟨hone, fun hpattern => ?_⟩
  refine Classical.byContradiction fun hstart => ?_
  have hfallback : protocol.pattern.isFallback = true := isFallback_of_succeeds (hone.mpr hstart)
  rw [hpattern] at hfallback
  cases hfallback

/-- The initiator continues an attempt that it has given up. -/
theorem entered_from_attempt_given_up :
    let pair := KeyPair.ofSecret ⟨Bytes.zeros 32, rfl⟩
    let attempt := (new .ikChaChaPolyBlake2s).afterAll [.setLocalKeyPair pair,
      .setRemotePublicKey pair.publicKey, .start .initiator [], .setLocalEphemeral pair, .abandon]
    let calls : List Call := [.startFallback attempt .initiator []]
    ((new .xxFallbackChaChaPolyBlake2s).afterAll calls).phase = .read ∧
      (new .xxFallbackChaChaPolyBlake2s).Succeeds Call.fallsBack calls := by
  intro pair attempt calls
  have hphase : ((new .xxFallbackChaChaPolyBlake2s).afterAll calls).phase = .read := by
    decide +kernel
  obtain ⟨hone, -⟩ := @entered_from_attempt_iff .xxFallbackChaChaPolyBlake2s calls
    (by rw [hphase]; rfl)
  refine ⟨hphase, hone.mpr ?_⟩
  simp [calls, Succeeds, Call.startsAfresh]

/-- XXfallback can be started afresh. -/
theorem fallback_started_afresh :
    let calls : List Call := [.setLocalPrivateKey (Bytes.zeros 32), .start .initiator []]
    let h := (new .xxFallbackChaChaPolyBlake2s).afterAll calls
    Protocol.xxFallbackChaChaPolyBlake2s ∈ Protocol.registry ∧
      Protocol.xxFallbackChaChaPolyBlake2s.pattern.isFallback = true ∧
      h.phase = .read ∧ ∀ call ∈ calls, call.fallsBack = false := by
  intro calls h
  refine ⟨by decide, rfl, by decide +kernel, ?_⟩
  simp [calls, Call.fallsBack]

end Handshake

end NoiseChannel
