import NoiseChannel.Proofs.Failed
import NoiseChannel.Proofs.Transcript

/-!
# Setting up a handshake

Before its first message a handshake is given keys and prologue and is started, in an order that is
up to its owner. Nothing of that order is left in it: a handshake that is being set up is in its
initial phase, has failed, or is started with a symmetric state that only depends on the prologue so
far (`SettingUp`), and this is kept by every call that sets up (`SettingUp.moves`). Hence two setups
that come to the same keys, role and prologue come to the same handshake.
-/

namespace NoiseChannel.Handshake

/-! ## What is shown -/

/-- What a call shows to the one who makes it. -/
inductive Shown where
  /-- Whether the call is done, or why it is refused. -/
  | answered (answer : Except Error Unit)
  /-- The area that was lent, the result and what is left of the source of randomness. -/
  | wrote (area : Bytes) (result : Except Error Nat) (left : Entropy)
  /-- The area that was lent and the result. -/
  | read (area : Bytes) (result : Except Error Nat)
  /-- The ciphers for sending and for receiving. -/
  | took (ciphers : Except Error (CipherState × CipherState))

/-- What a call on `h` shows. -/
def shown (h : Handshake) : Call → Shown
  | .write payload area entropy =>
    let (o, left) := h.write payload area entropy
    .wrote o.area o.result left
  | .read message area =>
    let o := h.read message area
    .read o.area o.result
  | .split => .took h.split.2
  | call => .answered (h.answer call)

/-- What calls made in turn on `h` show, with the handshake hash as it can be had after each. -/
def shownAll (h : Handshake) : List Call → List (Shown × Except Error Bytes)
  | [] => []
  | call :: calls => (h.shown call, (h.after call).hash) :: (h.after call).shownAll calls

/-! ## Calls that set up -/

/-- Whether a call on `h` has a part in its setup: it changes keys, starts the handshake or takes
prologue, successfully or not, or it is a message call that finds too little room. -/
def SetsUp (h : Handshake) : Call → Prop
  | .setLocalKeyPair _ | .setLocalPrivateKey _ | .generateLocalKeyPair _ | .setLocalEphemeral _
  | .setRemotePublicKey _ | .setPresharedKey _ | .removeKey _ | .start .. | .startFallback ..
  | .addPrologue _ => True
  | .write payload area entropy =>
    (h.write payload area entropy).1.result = .error .bufferTooSmall
  | .read message area => (h.read message area).result = .error .bufferTooSmall
  | .abandon | .split | .clear => False

/-- Whether calls made in turn on `h` set it up. -/
def SetUp (h : Handshake) : List Call → Prop
  | [] => True
  | call :: calls => h.SetsUp call ∧ (h.after call).SetUp calls

variable {protocol : Protocol} {role : Role} {taken : Bytes} {tr : Transcript} {h h' : Handshake}
  {call : Call}

/-- No message goes through while a handshake is set up. -/
theorem SetsUp.not_passed (hsets : h.SetsUp call) (message : Bytes) :
    h.event call ≠ .passed message := by
  intro hevent
  cases call with
  | write payload area entropy =>
    obtain ⟨_, hwritten, -⟩ := Event.ofResult_eq hevent nofun
    rw [Outcome.written, show (h.write payload area entropy).1.result = _ from hsets] at hwritten
    cases hwritten
  | read received area =>
    obtain ⟨_, hread, -⟩ := Event.ofResult_eq hevent nofun
    rw [show (h.read received area).result = _ from hsets] at hread
    cases hread
  | start | startFallback | addPrologue =>
    obtain ⟨_, -, hsaid⟩ := Event.ofResult_eq hevent nofun
    cases hsaid
  | setLocalKeyPair | setLocalPrivateKey | generateLocalKeyPair | setLocalEphemeral
  | setRemotePublicKey | setPresharedKey | removeKey | abandon | split | clear => cases hevent

/-! ## What setting up leaves -/

/-- A handshake in the course of its setup, with the prologue `taken` so far if it is started. -/
structure SettingUp (protocol : Protocol) (taken : Bytes) (h : Handshake) : Prop where
  protocol_eq : h.protocol = protocol
  /-- The handshake is not started, has failed, or is prepared. -/
  phase_cases : h.phase = .initial ∨ h.phase = .failed ∨ ∃ role, Prepared protocol role taken h

theorem Prepared.due (hp : Prepared protocol role taken h) :
    h.phase = .write ∨ h.phase = .read := by
  rw [hp.phase_eq]
  exact phaseFor_due protocol.pattern role 0

theorem settingUp_new (protocol : Protocol) :
    SettingUp protocol ({} : Transcript).prologue (new protocol) :=
  ⟨rfl, Or.inl rfl⟩

theorem SettingUp.prepared (hs : SettingUp protocol taken h)
    (hdue : h.phase = .write ∨ h.phase = .read) : ∃ role, Prepared protocol role taken h := by
  rcases hs.phase_cases with hphase | hphase | hprepared
  · rcases hdue with hp | hp <;> cases hphase.symm.trans hp
  · rcases hdue with hp | hp <;> cases hphase.symm.trans hp
  · exact hprepared

/-- Nothing that can be done to a handshake during its setup leaves more in it than keys, role and
prologue. -/
theorem SettingUp.moves {event : Event} (hs : SettingUp protocol tr.prologue h)
    (hmoves : Moves h call event h') (hsets : h.SetsUp call)
    (hnot : ∀ message, event ≠ .passed message) :
    SettingUp protocol (tr.record h event).prologue h' := by
  cases hmoves with
  | still => exact hs
  | failed hprotocol hphase _ => exact ⟨hprotocol.trans hs.protocol_eq, Or.inr (Or.inl hphase)⟩
  | rekeyed _ =>
    refine ⟨hs.protocol_eq, ?_⟩
    rcases hs.phase_cases with hphase | hphase | ⟨role, hp⟩
    · exact Or.inl hphase
    · exact Or.inr (Or.inl hphase)
    · exact Or.inr (Or.inr
        ⟨role, hp.protocol_eq, hp.role_eq, hp.number_eq, hp.phase_eq, hp.symmetric_eq⟩)
  | @started _ slots role prologue _ =>
    obtain rfl := hs.protocol_eq
    exact ⟨rfl, Or.inr (Or.inr ⟨role, rfl, rfl, rfl, rfl, rfl⟩)⟩
  | @added _ s s' piece hdue hn hsym hmix =>
    obtain ⟨role, hp⟩ := hs.prepared hdue
    obtain rfl : s = protocol.opening tr.prologue :=
      Option.some.inj (hsym.symm.trans hp.symmetric_eq)
    rw [opening_mixPrologue] at hmix
    cases hmix
    exact ⟨hs.protocol_eq,
      Or.inr (Or.inr ⟨role, hp.protocol_eq, hp.role_eq, hp.number_eq, hp.phase_eq, rfl⟩)⟩
  | written => exact absurd rfl (hnot _)
  | read => exact absurd rfl (hnot _)
  | split => exact hsets.elim

theorem SettingUp.afterAll (hs : SettingUp protocol tr.prologue h) {setup : List Call}
    (hsetup : h.SetUp setup) :
    SettingUp protocol (h.transcript tr setup).prologue (h.afterAll setup) := by
  induction setup generalizing h tr with
  | nil => exact hs
  | cons call setup ih =>
    obtain ⟨hsets, hlater⟩ := hsetup
    exact ih (hs.moves (h.moves call) hsets hsets.not_passed) hlater

/-- The handshake that a setup comes to. -/
def atFirstMessage (protocol : Protocol) (role : Role) (taken : Bytes) (slots : KeySlots)
    (psk : Option PresharedKey) : Handshake where
  protocol
  symmetric := some (protocol.opening taken)
  slots
  psk
  role := some role
  phase := phaseFor protocol.pattern role 0

/-- Role, prologue and keys are all that there is to a prepared handshake. -/
theorem Prepared.eq_atFirstMessage (hp : Prepared protocol role taken h) (hco : Coherent h) :
    h = atFirstMessage protocol role taken h.slots h.psk := by
  obtain ⟨-, -, hfailure, hhash⟩ := hco.due hp.due
  rcases h with ⟨protocol', symmetric, slots, psk, role', phase, number, failure, hash⟩
  obtain rfl : protocol' = protocol := hp.protocol_eq
  obtain rfl : symmetric = some (protocol'.opening taken) := hp.symmetric_eq
  obtain rfl : role' = some role := hp.role_eq
  obtain rfl : phase = phaseFor protocol'.pattern role 0 := hp.phase_eq
  obtain rfl : number = 0 := hp.number_eq
  obtain rfl : failure = none := hfailure
  obtain rfl : hash = none := hhash
  rfl

/-- The order in which a handshake is set up does not matter, nor do the sections in which its
prologue comes. Let two new handshakes of a protocol be set up, each by calls of its own: keys are
set, replaced and removed, calls are refused, message calls find too little room. If both end up
with a first message due in the same direction, with the same role and keys and with the same
prologue, then they are the same handshake, and all further calls show the same on both. -/
theorem setup_order_irrelevant {setup setup' : List Call} (hsetup : (new protocol).SetUp setup)
    (hsetup' : (new protocol).SetUp setup') :
    let h := (new protocol).afterAll setup
    let h' := (new protocol).afterAll setup'
    h.phase.awaitsMessage = true → h'.phase = h.phase → h'.role = h.role → h'.slots = h.slots →
      h'.psk = h.psk →
      ((new protocol).transcript {} setup').prologue =
        ((new protocol).transcript {} setup).prologue →
      h' = h ∧ ∀ later, h'.shownAll later = h.shownAll later := by
  intro h h' hawaits hphase hrole hslots hpsk hprologue
  have hdue := (awaitsMessage_iff h.phase).mp hawaits
  have hs : SettingUp protocol _ h := (settingUp_new protocol).afterAll hsetup
  have hs' : SettingUp protocol _ h' := (settingUp_new protocol).afterAll hsetup'
  rw [hprologue] at hs'
  obtain ⟨role, hp⟩ := hs.prepared hdue
  obtain ⟨role', hp'⟩ := hs'.prepared (by rw [hphase]; exact hdue)
  obtain rfl : role' = role :=
    Option.some.inj (hp'.role_eq.symm.trans (hrole.trans hp.role_eq))
  have hco : Coherent h := coherent_afterAll (coherent_new protocol) setup
  have hco' : Coherent h' := coherent_afterAll (coherent_new protocol) setup'
  have hsame : h' = h :=
    calc
      h' = atFirstMessage protocol role' _ h'.slots h'.psk := hp'.eq_atFirstMessage hco'
      _ = atFirstMessage protocol role' _ h.slots h.psk := by rw [hslots, hpsk]
      _ = h := (hp.eq_atFirstMessage hco).symm
  exact ⟨hsame, fun later => by rw [hsame]⟩

/-- One initiator of IK has its keys before it starts. Another one starts with a wrong key for the
responder, loses an ephemeral pair that it has set before, finds too little room for its message,
then sets the right key and takes the rest of the prologue. -/
theorem setup_order_irrelevant_ik :
    let x := KeyPair.ofSecret ⟨Bytes.zeros 32, rfl⟩
    let y := KeyPair.ofSecret ⟨List.replicate 32 1, rfl⟩
    let setup : List Call := [.setLocalKeyPair x, .setRemotePublicKey y.publicKey,
      .start .initiator [1, 2]]
    let setup' : List Call := [.setRemotePublicKey x.publicKey, .setLocalKeyPair x,
      .setLocalEphemeral y, .start .initiator [1], .write [9] [] .silent,
      .setRemotePublicKey y.publicKey, .addPrologue [2]]
    let h := (new .ikChaChaPolyBlake2s).afterAll setup
    let h' := (new .ikChaChaPolyBlake2s).afterAll setup'
    ∀ later, h'.shownAll later = h.shownAll later := by
  intro x y setup setup' h h'
  have hsetup : (new .ikChaChaPolyBlake2s).SetUp setup := ⟨trivial, trivial, trivial, trivial⟩
  have hsetup' : (new .ikChaChaPolyBlake2s).SetUp setup' :=
    ⟨trivial, trivial, trivial, trivial, rfl, trivial, trivial, trivial⟩
  have hdue : h.phase.awaitsMessage = true ∧ h'.phase = h.phase ∧ h'.role = h.role := by
    decide +kernel
  have hkeys : h'.slots = h.slots ∧ h'.psk = h.psk := by decide +kernel
  have hprologue : ((new .ikChaChaPolyBlake2s).transcript {} setup').prologue =
      ((new .ikChaChaPolyBlake2s).transcript {} setup).prologue := by
    decide +kernel
  obtain ⟨hawaits, hphase, hrole⟩ := hdue
  obtain ⟨hslots, hpsk⟩ := hkeys
  exact (setup_order_irrelevant hsetup hsetup' hawaits hphase hrole hslots hpsk hprologue).2

end NoiseChannel.Handshake
