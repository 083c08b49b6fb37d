import NoiseChannel.Proofs.Setup

/-!
# What a fallback inherits

A fallback begins with its own keys, with one ephemeral key of the failed attempt, and with the
attempt's static pair if it has none itself (`KeySlots.inherit`). It starts if and only if there are
these two, and what it is then is a function of them and of itself (`startFallback_eq`). The rest of
the attempt, its protocol, its other keys, how far it had come and why it failed, has no part in it.
-/

namespace NoiseChannel

namespace KeySlots

variable {k a a' : KeySlots} {role : Role}

/-- Whether a failed attempt holds the ephemeral key with which a party in `role` continues. -/
def Carries (a : KeySlots) : Role → Prop
  | .initiator => a.localEphemeral.isSome = true
  | .responder => a.remoteEphemeral.isSome = true

/-- Whether a party in `role` finds the same in two failed attempts: the ephemeral key with which it
continues, and its static pair. -/
def LeavesSame (role : Role) (a a' : KeySlots) : Prop :=
  a'.localStatic = a.localStatic ∧
    match role with
    | .initiator => a'.localEphemeral = a.localEphemeral
    | .responder => a'.remoteEphemeral = a.remoteEphemeral

/-- The slots with which a party in `role` continues: its own, but for the ephemeral key of the
attempt and the peer's static key, which has yet to be learned. -/
def inherit (k : KeySlots) (role : Role) (a : KeySlots) : KeySlots where
  localStatic := k.localStatic.or a.localStatic
  localEphemeral :=
    match role with
    | .initiator => a.localEphemeral
    | .responder => k.localEphemeral
  remoteStatic := none
  remoteEphemeral :=
    match role with
    | .initiator => k.remoteEphemeral
    | .responder => a.remoteEphemeral

instance (a : KeySlots) (role : Role) : Decidable (a.Carries role) := by
  unfold Carries
  cases role <;> infer_instance

theorem LeavesSame.carries (h : LeavesSame role a a') : a'.Carries role ↔ a.Carries role := by
  obtain ⟨-, hcarried⟩ := h
  cases role with
  | initiator =>
    change a'.localEphemeral = a.localEphemeral at hcarried
    rw [Carries, Carries, hcarried]
  | responder =>
    change a'.remoteEphemeral = a.remoteEphemeral at hcarried
    rw [Carries, Carries, hcarried]

theorem LeavesSame.inherit (h : LeavesSame role a a') (k : KeySlots) :
    k.inherit role a' = k.inherit role a := by
  obtain ⟨hstatic, hcarried⟩ := h
  cases role with
  | initiator =>
    change a'.localEphemeral = a.localEphemeral at hcarried
    rw [KeySlots.inherit, KeySlots.inherit, hstatic, hcarried]
  | responder =>
    change a'.remoteEphemeral = a.remoteEphemeral at hcarried
    rw [KeySlots.inherit, KeySlots.inherit, hstatic, hcarried]

/-- Taking over leaves the peer's static key alone; it is forgotten at the start. -/
theorem takeOver_carried (h : a.Carries role) (k : KeySlots) :
    k.takeOver role a = .ok { k.inherit role a with remoteStatic := k.remoteStatic } := by
  cases role with
  | initiator =>
    obtain ⟨pair, hpair⟩ := Option.isSome_iff_exists.mp h
    rw [takeOver, inherit, hpair]
    rfl
  | responder =>
    obtain ⟨key, hkey⟩ := Option.isSome_iff_exists.mp h
    rw [takeOver, inherit, hkey]
    rfl

theorem takeOver_lost (h : ¬ a.Carries role) (k : KeySlots) :
    k.takeOver role a = .error .missingKey := by
  cases role with
  | initiator =>
    have hnone : a.localEphemeral = none := Option.not_isSome_iff_eq_none.mp h
    rw [takeOver, hnone]
  | responder =>
    have hnone : a.remoteEphemeral = none := Option.not_isSome_iff_eq_none.mp h
    rw [takeOver, hnone]

end KeySlots

namespace Handshake

/-- A fallback needs its static pair and nothing else of what is set before the start. -/
theorem needs_fallback {protocol : Protocol} (hregistered : protocol ∈ Protocol.registry)
    (hfallback : protocol.pattern.isFallback = true) (role : Role) :
    protocol.needs role = { localStatic := true } := by
  have hall : ∀ protocol ∈ Protocol.registry, protocol.pattern.isFallback = true →
      ∀ role ∈ Role.all, protocol.needs role = { localStatic := true } := by
    decide
  exact hall protocol hregistered hfallback role (by cases role <;> decide)

section Fallback

variable {h f f' : Handshake} {role : Role}

theorem forgetStale_fallback (hfallback : h.pattern.isFallback = true) (slots : KeySlots) :
    h.pattern.forgetStale slots = slots.removeRemoteStatic := by
  revert hfallback
  cases h.pattern <;> first | exact fun _ => rfl | exact nofun

theorem start_fallback (h : Handshake) (hregistered : h.protocol ∈ Protocol.registry)
    (hfallback : h.pattern.isFallback = true) (hfresh : h.phase = .initial) (prologue : Bytes) :
    h.start role prologue =
      if h.slots.localStatic.isSome then (h.started role prologue, .ok ())
      else
        ({ h with slots := h.slots.removeRemoteStatic }.fail .missingKey, .error .missingKey) := by
  have hneeds := needs_fallback hregistered hfallback role
  have hholds : ∀ slots : KeySlots,
      { h with slots }.holds { localStatic := true } = slots.localStatic.isSome := by
    intro slots
    simp [holds, hasKey]
  by_cases hstatic : h.slots.localStatic.isSome = true
  · rw [if_pos hstatic]
    refine start_eq hfresh ?_ (Or.inr ?_) prologue
    · rw [hneeds]
      exact (hholds h.slots).trans hstatic
    · rw [hneeds]
  · have hlacks : ¬ { h with slots := h.slots.removeRemoteStatic }.holds (h.protocol.needs role) =
        true := by
      rw [hneeds, hholds]
      exact hstatic
    rw [if_neg hstatic]
    unfold start
    split
    · rw [forgetStale_fallback hfallback]
      exact if_neg hlacks
    · rename_i hfailed
      cases hfresh.symm.trans hfailed
    · exact absurd hfresh ‹_›

/-- What a start forgets need not be there before. -/
theorem started_congr {slots slots' : KeySlots}
    (heq : h.pattern.forgetStale slots = h.pattern.forgetStale slots') (prologue : Bytes) :
    { h with slots }.started role prologue = { h with slots := slots' }.started role prologue := by
  show { h with
    slots := h.pattern.forgetStale slots
    symmetric := some (h.protocol.opening prologue)
    role := some role
    messageNumber := 0
    phase := phaseFor h.pattern role 0 } = _
  rw [heq]
  rfl

/-- A fresh handshake after falling back from `f`: started with what it inherits, or failed for want
of a key. -/
def fallenBack (h f : Handshake) (role : Role) (prologue : Bytes) :
    Handshake × Except Error Unit :=
  let heir := { h with slots := h.slots.inherit role f.slots }
  if f.slots.Carries role then
    if heir.slots.localStatic.isSome then (heir.started role prologue, .ok ())
    else (heir.fail .missingKey, .error .missingKey)
  else (h.fail .missingKey, .error .missingKey)

/-- What comes of a fallback is told by the two keys that the attempt may leave. -/
theorem startFallback_eq (hregistered : h.protocol ∈ Protocol.registry)
    (hfallback : h.pattern.isFallback = true) (hfresh : h.phase = .initial)
    (hf : f.phase = .failed) (prologue : Bytes) :
    h.startFallback f role prologue = h.fallenBack f role prologue := by
  have hcond : (h.pattern.isFallback && h.phase == .initial && f.phase == .failed) = true := by
    rw [hfallback, hfresh, hf]
    rfl
  rw [startFallback, if_pos hcond, fallenBack]
  by_cases hcarries : f.slots.Carries role
  · generalize htaken : { h.slots.inherit role f.slots with
      remoteStatic := h.slots.remoteStatic } = taken
    have hheir : taken.removeRemoteStatic = h.slots.inherit role f.slots := by
      rw [← htaken]
      rfl
    have hstatic : taken.localStatic = (h.slots.inherit role f.slots).localStatic := by
      rw [← htaken]
    have hforget : h.pattern.forgetStale taken =
        h.pattern.forgetStale (h.slots.inherit role f.slots) := by
      rw [forgetStale_fallback hfallback, forgetStale_fallback hfallback, hheir]
      rfl
    have hstart : { h with slots := taken }.start role prologue =
        if taken.localStatic.isSome then ({ h with slots := taken }.started role prologue, .ok ())
        else ({ h with slots := taken.removeRemoteStatic }.fail .missingKey, .error .missingKey) :=
      start_fallback { h with slots := taken } hregistered hfallback hfresh prologue
    rw [KeySlots.takeOver_carried hcarries, htaken, if_pos hcarries]
    simp only []
    rw [hstart, hstatic, hheir, started_congr hforget]
  · rw [KeySlots.takeOver_lost hcarries, if_neg hcarries]

end Fallback

/-! ## An attempt and its heir -/

/-- A failed attempt and the handshake that continues it, in the hands of one party. -/
structure Succession where
  attempt : Handshake
  heir : Handshake

/-- A call on one of the two. -/
inductive Made where
  | onAttempt (call : Call)
  | onHeir (call : Call)

namespace Made

def onAttempt? : Made → Option Call
  | onAttempt call => some call
  | onHeir _ => none

def onHeir? : Made → Option Call
  | onAttempt _ => none
  | onHeir call => some call

end Made

namespace Succession

/-- `h` falls back from `f`. -/
def begin (h f : Handshake) (role : Role) (prologue : Bytes) : Succession :=
  ⟨f, (h.startFallback f role prologue).1⟩

def after (s : Succession) : Made → Succession
  | .onAttempt call => { s with attempt := s.attempt.after call }
  | .onHeir call => { s with heir := s.heir.after call }

def afterAll (s : Succession) (made : List Made) : Succession := made.foldl after s

/-- What the heir shows while calls are made on both, in any order. -/
def shownByHeir : Succession → List Made → List (Shown × Except Error Bytes)
  | _, [] => []
  | s, .onAttempt call :: made => (s.after (.onAttempt call)).shownByHeir made
  | s, .onHeir call :: made =>
    (s.heir.shown call, (s.heir.after call).hash) :: (s.after (.onHeir call)).shownByHeir made

/-- The heir shows what it shows by itself. -/
theorem shownByHeir_eq (s : Succession) (made : List Made) :
    s.shownByHeir made = s.heir.shownAll (made.filterMap Made.onHeir?) := by
  induction made generalizing s with
  | nil => rfl
  | cons m made ih =>
    cases m with
    | onAttempt call => exact ih _
    | onHeir call => exact congrArg _ (ih _)

/-- The attempt is what its own calls make of it. -/
theorem attempt_afterAll (s : Succession) (made : List Made) :
    (s.afterAll made).attempt = s.attempt.afterAll (made.filterMap Made.onAttempt?) := by
  induction made generalizing s with
  | nil => rfl
  | cons m made ih =>
    cases m with
    | onAttempt call => exact ih _
    | onHeir call => exact ih _

end Succession

/-- A fallback takes nothing from the failed attempt but one ephemeral key and, at need, the static
pair. Let a fresh handshake of a registered fallback protocol fall back, in the same role and with
the same prologue, from each of two handshakes of whatever protocols that have failed in whatever
way, and let both leave the same. Then the result is the same, and the two heirs show the same in
all later calls, whatever is done meanwhile with the attempts. They start if and only if the
ephemeral key and a static pair are there; an heir that has started has the static pair that it had
before, else that of the attempt, the ephemeral key that the attempt leaves, no static key of the
peer and no pre-shared key but its own. The attempts stay what they are, but for calls of their
own. -/
theorem fallback_inherits_nothing_else {h f f' : Handshake} {role : Role}
    (hregistered : h.protocol ∈ Protocol.registry) (hfallback : h.pattern.isFallback = true)
    (hfresh : h.phase = .initial) (hf : f.phase = .failed) (hf' : f'.phase = .failed)
    (hsame : KeySlots.LeavesSame role f.slots f'.slots) (prologue : Bytes) :
    let s := Succession.begin h f role prologue
    let s' := Succession.begin h f' role prologue
    let result := (h.startFallback f role prologue).2
    (h.startFallback f' role prologue).2 = result ∧
      (∀ made made', made'.filterMap Made.onHeir? = made.filterMap Made.onHeir? →
        s'.shownByHeir made' = s.shownByHeir made) ∧
      (result = .ok () ↔
        f.slots.Carries role ∧ (h.slots.localStatic.or f.slots.localStatic).isSome = true) ∧
      (result = .ok () →
        s.heir = { h with slots := h.slots.inherit role f.slots }.started role prologue ∧
        s.heir.slots.localStatic = h.slots.localStatic.or f.slots.localStatic ∧
        s.heir.slots.remoteStatic = none ∧ s.heir.psk = h.psk ∧
        match role with
        | .initiator => s.heir.slots.localEphemeral = f.slots.localEphemeral ∧
            s.heir.slots.remoteEphemeral = h.slots.remoteEphemeral
        | .responder => s.heir.slots.remoteEphemeral = f.slots.remoteEphemeral ∧
            s.heir.slots.localEphemeral = h.slots.localEphemeral) ∧
      ∀ made, (s.afterAll made).attempt = f.afterAll (made.filterMap Made.onAttempt?) ∧
        (s'.afterAll made).attempt = f'.afterAll (made.filterMap Made.onAttempt?) := by
  intro s s' result
  have hstart : h.startFallback f role prologue = h.fallenBack f role prologue :=
    startFallback_eq hregistered hfallback hfresh hf prologue
  have hstart' : h.startFallback f' role prologue = h.fallenBack f' role prologue :=
    startFallback_eq hregistered hfallback hfresh hf' prologue
  have hequal : h.startFallback f' role prologue = h.startFallback f role prologue := by
    rw [hstart, hstart', fallenBack, fallenBack, hsame.inherit]
    simp only [hsame.carries]
  have hheir : s'.heir = s.heir := congrArg Prod.fst hequal
  have hok : result = .ok () ↔
      f.slots.Carries role ∧ (h.slots.localStatic.or f.slots.localStatic).isSome = true := by
    show (h.startFallback f role prologue).2 = .ok () ↔ _
    rw [hstart, fallenBack]
    by_cases hcarries : f.slots.Carries role
    · rw [if_pos hcarries]
      by_cases hstatic : (h.slots.localStatic.or f.slots.localStatic).isSome = true
      · simp [hcarries, hstatic, KeySlots.inherit]
      · simp [hcarries, hstatic, KeySlots.inherit]
    · simp [hcarries]
  refine ⟨congrArg Prod.snd hequal, ?_, hok, ?_, ?_⟩
  · intro made made' hcalls
    rw [Succession.shownByHeir_eq, Succession.shownByHeir_eq, hheir, hcalls]
  · intro hstarted
    obtain ⟨hcarries, hstatic⟩ := hok.mp hstarted
    have heq : s.heir = { h with slots := h.slots.inherit role f.slots }.started role prologue := by
      show (h.startFallback f role prologue).1 = _
      rw [hstart, fallenBack, if_pos hcarries]
      exact congrArg Prod.fst (if_pos hstatic)
    have hslots : s.heir.slots = h.slots.inherit role f.slots := by
      rw [heq, started]
      exact (forgetStale_fallback hfallback _).trans rfl
    refine ⟨heq, by rw [hslots]; rfl, by rw [hslots]; rfl, by rw [heq]; rfl, ?_⟩
    rw [hslots]
    cases role with
    | initiator => exact ⟨rfl, rfl⟩
    | responder => exact ⟨rfl, rfl⟩
  · intro made
    exact ⟨s.attempt_afterAll made, s'.attempt_afterAll made⟩

/-- An IK attempt that is given up and an NNpsk0 responder that is sent too short a message leave an
initiator the same. -/
theorem fallback_inherits_nothing_else_ik :
    let x := KeyPair.ofSecret ⟨Bytes.zeros 32, rfl⟩
    let y := KeyPair.ofSecret ⟨List.replicate 32 1, rfl⟩
    let f := (new .ikChaChaPolyBlake2s).afterAll [.setLocalKeyPair x,
      .setRemotePublicKey y.publicKey, .start .initiator [1], .setLocalEphemeral y, .abandon]
    let f' := (new .nnPsk0ChaChaPolySha256).afterAll [.setLocalKeyPair x,
      .setPresharedKey (Bytes.zeros 32), .start .responder [2], .setLocalEphemeral y, .read [] []]
    let h := new .xxFallbackChaChaPolyBlake2s
    let s := Succession.begin h f .initiator []
    let s' := Succession.begin h f' .initiator []
    f.psk = none ∧ f'.psk ≠ none ∧ f.failure ≠ f'.failure ∧
      (h.startFallback f .initiator []).2 = .ok () ∧
      ∀ made, s'.shownByHeir made = s.shownByHeir made := by
  intro x y f f' h s s'
  have hphases : f.phase = .failed ∧ f'.phase = .failed := by decide +kernel
  have hsame : KeySlots.LeavesSame .initiator f.slots f'.slots := by
    refine ⟨?_, ?_⟩
    · decide +kernel
    · decide +kernel
  have hleft : f.slots.Carries .initiator ∧
      (h.slots.localStatic.or f.slots.localStatic).isSome = true := by
    decide +kernel
  obtain ⟨-, hshown, hstarts, -, -⟩ :=
    fallback_inherits_nothing_else (h := h) (by decide) rfl rfl hphases.1 hphases.2 hsame []
  refine ⟨by decide +kernel, by decide +kernel, by decide +kernel, hstarts.mpr hleft, ?_⟩
  intro made
  exact hshown made made rfl

end Handshake

end NoiseChannel
