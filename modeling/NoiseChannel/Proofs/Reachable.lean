import NoiseChannel.Proofs.MessageErrors
import NoiseChannel.Transport

/-!
# Reachable handshakes

`Call` lists the calls that may change a handshake, `after` is a handshake after one of them,
successful or not, and `afterAll` after a sequence. The fields of a handshake hang together at any
time, in the way that `Coherent` says: a new handshake is coherent (`coherent_new`) and every call
keeps it so (`coherent_after`).
-/

namespace NoiseChannel.Handshake

/-! ## Calls -/

/-- A call on a handshake, with its arguments. -/
inductive Call where
  | setLocalKeyPair (pair : KeyPair)
  | setLocalPrivateKey (secret : Bytes)
  | generateLocalKeyPair (entropy : Entropy)
  | setLocalEphemeral (pair : KeyPair)
  | setRemotePublicKey (key : PublicKey)
  | setPresharedKey (bytes : Bytes)
  | removeKey (id : KeyId)
  | start (role : Role) (prologue : Bytes)
  | startFallback (attempt : Handshake) (role : Role) (prologue : Bytes)
  | addPrologue (prologue : Bytes)
  | write (payload area : Bytes) (entropy : Entropy)
  | read (message area : Bytes)
  | abandon
  | split
  | clear

/-- The handshake after a call that gives it back if it succeeds and else leaves it alone. -/
def settle (h : Handshake) : Except Error Handshake → Handshake
  | .ok h' => h'
  | .error _ => h

/-- The handshake after a call, be it successful or not. -/
def after (h : Handshake) : Call → Handshake
  | .setLocalKeyPair pair => h.settle (h.setLocalKeyPair pair)
  | .setLocalPrivateKey secret => h.settle (h.setLocalPrivateKey secret)
  | .generateLocalKeyPair entropy => h.settle (h.generateLocalKeyPair entropy)
  | .setLocalEphemeral pair => h.settle (h.setLocalEphemeral pair)
  | .setRemotePublicKey key => h.settle (h.setRemotePublicKey key)
  | .setPresharedKey bytes => h.settle (h.setPresharedKey bytes)
  | .removeKey id => h.settle (h.removeKey id)
  | .start role prologue => (h.start role prologue).1
  | .startFallback attempt role prologue => (h.startFallback attempt role prologue).1
  | .addPrologue prologue => h.settle (h.addPrologue prologue)
  | .write payload area entropy => (h.write payload area entropy).1.state
  | .read message area => (h.read message area).state
  | .abandon => h.abandon
  | .split => h.split.1
  | .clear => h.clear

/-- The handshake after a sequence of calls. -/
def afterAll (h : Handshake) (calls : List Call) : Handshake := calls.foldl after h

/-- What every call keeps, of those that meet a condition, is kept by a sequence of them. -/
theorem afterAll_keeps {P : Handshake → Prop} {Q : Call → Prop}
    (hstep : ∀ h call, Q call → P h → P (h.after call)) {h : Handshake} {calls : List Call}
    (hcalls : ∀ call ∈ calls, Q call) (h₀ : P h) : P (h.afterAll calls) := by
  induction calls generalizing h with
  | nil => exact h₀
  | cons call calls ih =>
    obtain ⟨hcall, hlater⟩ := List.forall_mem_cons.mp hcalls
    exact ih hlater (hstep h call hcall h₀)

/-- Whether a call changes keys. -/
def Call.changesKeys : Call → Bool
  | .setLocalKeyPair _ | .setLocalPrivateKey _ | .generateLocalKeyPair _ | .setLocalEphemeral _
  | .setRemotePublicKey _ | .setPresharedKey _ | .removeKey _ => true
  | .start .. | .startFallback .. | .addPrologue _ | .write .. | .read .. | .abandon | .split
  | .clear => false

/-- Where keys may not change, a call that changes one does not succeed. -/
theorem of_checked {h : Handshake} {rest : Except Error Handshake} {h' : Handshake}
    (hr : (h.checkKeysMutable >>= fun _ => rest) = .ok h') : rest = .ok h' := by
  cases hcheck : h.checkKeysMutable with
  | error e =>
    rw [hcheck] at hr
    cases hr
  | ok u =>
    rw [hcheck] at hr
    exact hr

theorem checkKeysMutable_ok {h : Handshake} :
    h.checkKeysMutable = .ok () ↔
      h.phase = .initial ∨ (h.phase = .write ∨ h.phase = .read) ∧ h.messageNumber = 0 := by
  unfold checkKeysMutable
  cases hphase : h.phase with
  | initial | split | finished | failed => simp
  | write | read =>
    by_cases hn : h.messageNumber = 0 <;> simp [hn]

/-- Where keys may not change, calls that would change them do nothing. -/
theorem after_keys_fixed {h : Handshake} {call : Call} (hkeys : call.changesKeys = true) {e : Error}
    (hfixed : h.checkKeysMutable = .error e) : h.after call = h := by
  cases call with
  | setLocalKeyPair | setLocalPrivateKey | generateLocalKeyPair | setLocalEphemeral
  | setRemotePublicKey | setPresharedKey | removeKey =>
    simp only [after, setLocalKeyPair, setLocalPrivateKey, generateLocalKeyPair,
      setLocalEphemeral, setRemotePublicKey, setPresharedKey, removeKey, changeSlots, hfixed]
    rfl
  | start | startFallback | addPrologue | write | read | abandon | split | clear => cases hkeys

/-- What a call makes of the slot of this party's ephemeral pair where keys may change. -/
def Call.choose (current : Option KeyPair) : Call → Option KeyPair
  | .setLocalEphemeral pair => some pair
  | .removeKey .localEphemeral | .removeKey .remoteEphemeral => none
  | _ => current

/-- The peer's ephemeral key cannot be set; this party's pair is what is chosen. -/
theorem ephemerals_after_keys {h : Handshake} {call : Call} (hkeys : call.changesKeys = true)
    (hmutable : h.checkKeysMutable = .ok ()) :
    (h.after call).slots.localEphemeral = call.choose h.slots.localEphemeral ∧
      ((h.after call).slots.remoteEphemeral = none ∨
        (h.after call).slots.remoteEphemeral = h.slots.remoteEphemeral) := by
  cases call with
  | setLocalKeyPair | generateLocalKeyPair | setLocalEphemeral | setRemotePublicKey =>
    simp only [after, setLocalKeyPair, generateLocalKeyPair, setLocalEphemeral,
      setRemotePublicKey, changeSlots, hmutable]
    exact ⟨rfl, Or.inr rfl⟩
  | setLocalPrivateKey secret =>
    simp only [after, setLocalPrivateKey, hmutable]
    cases KeyPair.ofBytes secret <;> exact ⟨rfl, Or.inr rfl⟩
  | setPresharedKey bytes =>
    simp only [after, setPresharedKey, hmutable]
    cases PresharedKey.ofBytes bytes <;> exact ⟨rfl, Or.inr rfl⟩
  | removeKey id =>
    simp only [after, removeKey, hmutable]
    cases id with
    | localStatic | remoteStatic | presharedKey => exact ⟨rfl, Or.inr rfl⟩
    | localEphemeral | remoteEphemeral => exact ⟨rfl, Or.inl rfl⟩
  | start | startFallback | addPrologue | write | read | abandon | split | clear => cases hkeys

/-- A call that changes keys changes nothing else, be it successful or not; and keys that are held
stay, unless the call removes one. -/
theorem after_keys (h : Handshake) {call : Call} (hc : call.changesKeys = true) :
    ∃ slots psk, h.after call = { h with slots, psk } ∧
      ((∀ id, call ≠ .removeKey id) →
        ∀ id, h.hasKey id = true → { h with slots, psk }.hasKey id = true) := by
  -- a call that is refused leaves everything as it is
  have hsettle : ∀ r : Except Error Handshake,
      (∀ h', r = .ok h' → ∃ slots psk, h' = { h with slots, psk } ∧
        ((∀ id, call ≠ .removeKey id) →
          ∀ id, h.hasKey id = true → { h with slots, psk }.hasKey id = true)) →
      ∃ slots psk, h.settle r = { h with slots, psk } ∧
        ((∀ id, call ≠ .removeKey id) →
          ∀ id, h.hasKey id = true → { h with slots, psk }.hasKey id = true) := by
    intro r hr
    cases r with
    | ok h' => exact hr h' rfl
    | error e => exact ⟨h.slots, h.psk, rfl, fun _ _ hid => hid⟩
  cases call with
  | setLocalKeyPair | generateLocalKeyPair | setLocalEphemeral | setRemotePublicKey =>
    refine hsettle _ fun h' hr => ?_
    cases of_checked hr
    refine ⟨_, _, rfl, fun _ id hid => ?_⟩
    cases id <;> first | rfl | exact hid
  | setLocalPrivateKey secret =>
    refine hsettle _ fun h' hr => ?_
    have hpair := of_checked hr
    cases hof : KeyPair.ofBytes secret with
    | error e =>
      rw [hof] at hpair
      cases hpair
    | ok pair =>
      rw [hof] at hpair
      cases hpair
      refine ⟨_, _, rfl, fun _ id hid => ?_⟩
      cases id <;> first | rfl | exact hid
  | setPresharedKey bytes =>
    refine hsettle _ fun h' hr => ?_
    have hpsk := of_checked hr
    cases hof : PresharedKey.ofBytes bytes with
    | error e =>
      rw [hof] at hpsk
      cases hpsk
    | ok psk =>
      rw [hof] at hpsk
      cases hpsk
      refine ⟨_, _, rfl, fun _ id hid => ?_⟩
      cases id <;> first | rfl | exact hid
  | removeKey removed =>
    refine hsettle _ fun h' hr => ?_
    have hremoved := of_checked hr
    cases removed <;> cases hremoved <;>
      exact ⟨_, _, rfl, fun hremoves => absurd rfl (hremoves _)⟩
  | start | startFallback | addPrologue | write | read | abandon | split | clear => cases hc

/-! ## The invariant -/

/-- How the fields of a handshake hang together. -/
structure Coherent (h : Handshake) : Prop where
  /-- There is a symmetric state from the start to the split. -/
  symmetric_iff : h.symmetric.isSome = true ↔ h.phase = .write ∨ h.phase = .read ∨ h.phase = .split
  /-- A failed handshake, and no other, knows why it failed. -/
  failure_iff : h.failure.isSome = true ↔ h.phase = .failed
  /-- The final hash is kept once the symmetric state is gone. -/
  finalHash_iff : h.finalHash.isSome = true ↔ h.phase = .finished
  /-- A started handshake has a role. -/
  role_isSome : h.phase = .write ∨ h.phase = .read ∨ h.phase = .split ∨ h.phase = .finished →
    h.role.isSome = true
  /-- While a message is due, not all are through. -/
  number_lt : h.phase = .write ∨ h.phase = .read → h.messageNumber < h.pattern.messages.length
  /-- The party writes whose turn it is by the pattern; the other one reads. -/
  write_iff : h.phase = .write ∨ h.phase = .read → ∀ role, h.role = some role →
    (h.phase = .write ↔ role = h.pattern.writer h.messageNumber)
  /-- In the end all messages are through. -/
  number_eq : h.phase = .split ∨ h.phase = .finished → h.messageNumber = h.pattern.messages.length
  /-- The prologue phase lasts until the first message is through. -/
  inPrologue_iff : (∃ s, h.symmetric = some s ∧ s.inPrologue = true) ↔
    (h.phase = .write ∨ h.phase = .read) ∧ h.messageNumber = 0

theorem coherent_new (protocol : Protocol) : Coherent (new protocol) where
  symmetric_iff := by simp [new]
  failure_iff := by simp [new]
  finalHash_iff := by simp [new]
  role_isSome := by simp [new]
  number_lt := by simp [new]
  write_iff := by simp [new]
  number_eq := by simp [new]
  inPrologue_iff := by simp [new]

theorem awaitsMessage_iff (phase : Phase) :
    phase.awaitsMessage = true ↔ phase = .write ∨ phase = .read := by
  cases phase <;> simp [Phase.awaitsMessage]

namespace Coherent

variable {h : Handshake}

/-- The keys have no part in it. -/
theorem keys (hc : Coherent h) (slots : KeySlots) (psk : Option PresharedKey) :
    Coherent { h with slots, psk } :=
  ⟨hc.symmetric_iff, hc.failure_iff, hc.finalHash_iff, hc.role_isSome, hc.number_lt, hc.write_iff,
    hc.number_eq, hc.inPrologue_iff⟩

theorem failure_none (hc : Coherent h) (hphase : h.phase ≠ .failed) : h.failure = none := by
  have hnone : ¬ h.failure.isSome = true := fun hsome => hphase (hc.failure_iff.mp hsome)
  simpa using hnone

theorem symmetric_none (hc : Coherent h)
    (hphase : ¬ (h.phase = .write ∨ h.phase = .read ∨ h.phase = .split)) : h.symmetric = none := by
  have hnone : ¬ h.symmetric.isSome = true := fun hsome => hphase (hc.symmetric_iff.mp hsome)
  simpa using hnone

theorem finalHash_none (hc : Coherent h) (hphase : h.phase ≠ .finished) : h.finalHash = none := by
  have hnone : ¬ h.finalHash.isSome = true := fun hsome => hphase (hc.finalHash_iff.mp hsome)
  simpa using hnone

/-- Until it is through a handshake may fail. -/
theorem fail (hc : Coherent h) (hphase : h.phase ≠ .finished) (e : Error) :
    Coherent (h.fail e) where
  symmetric_iff := by simp [Handshake.fail]
  failure_iff := by simp [Handshake.fail]
  finalHash_iff := by
    simpa [Handshake.fail] using hc.finalHash_none hphase
  role_isSome := by simp [Handshake.fail]
  number_lt := by simp [Handshake.fail]
  write_iff := by simp [Handshake.fail]
  number_eq := by simp [Handshake.fail]
  inPrologue_iff := by simp [Handshake.fail]

/-- A handshake that awaits a message has a role and a symmetric state, and no reason to fail. -/
theorem due (hc : Coherent h) (hdue : h.phase = .write ∨ h.phase = .read) :
    (∃ role, h.role = some role) ∧ (∃ s, h.symmetric = some s) ∧
      h.failure = none ∧ h.finalHash = none := by
  have hrole := hc.role_isSome (by rcases hdue with hp | hp <;> simp [hp])
  have hsym := hc.symmetric_iff.mpr (by rcases hdue with hp | hp <;> simp [hp])
  have hfail := hc.failure_none (by rcases hdue with hp | hp <;> simp [hp])
  have hhash := hc.finalHash_none (by rcases hdue with hp | hp <;> simp [hp])
  exact ⟨Option.isSome_iff_exists.mp hrole, Option.isSome_iff_exists.mp hsym, hfail, hhash⟩

/-- What makes a handshake that awaits a message coherent: it awaits it in the phase that its role
finds the message in. -/
theorem of_due {role : Role} {s : SymmetricState} (hrole : h.role = some role)
    (hsym : h.symmetric = some s) (hfail : h.failure = none) (hhash : h.finalHash = none)
    (hlt : h.messageNumber < h.pattern.messages.length)
    (hphase : h.phase = phaseFor h.pattern role h.messageNumber)
    (hpro : s.inPrologue = true ↔ h.messageNumber = 0) : Coherent h := by
  have hturn : h.phase = .write ↔ h.pattern.writer h.messageNumber = role := by
    rw [hphase, phaseFor]
    split <;> simp [*]
  have hdue : h.phase = .write ∨ h.phase = .read := by
    rw [hphase, phaseFor]
    split <;> simp
  refine ⟨?_, ?_, ?_, fun _ => by simp [hrole], fun _ => hlt, ?_, ?_, ?_⟩
  · rcases hdue with hp | hp <;> simp [hp, hsym]
  · rcases hdue with hp | hp <;> simp [hp, hfail]
  · rcases hdue with hp | hp <;> simp [hp, hhash]
  · intro _ role' hrole'
    rw [hrole] at hrole'
    cases hrole'
    rw [hturn]
    exact eq_comm
  · rcases hdue with hp | hp <;> simp [hp]
  · simp [hsym, hdue, hpro]

/-- What makes a handshake coherent once all messages are through. -/
theorem of_split {role : Role} {s : SymmetricState} (hrole : h.role = some role)
    (hsym : h.symmetric = some s) (hfail : h.failure = none) (hhash : h.finalHash = none)
    (hnumber : h.messageNumber = h.pattern.messages.length) (hphase : h.phase = .split)
    (hpro : s.inPrologue = false) : Coherent h := by
  refine ⟨?_, ?_, ?_, fun _ => by simp [hrole], ?_, ?_, fun _ => hnumber, ?_⟩
  · simp [hphase, hsym]
  · simp [hphase, hfail]
  · simp [hphase, hhash]
  · simp [hphase]
  · simp [hphase]
  · simp [hphase, hsym, hpro]

/-- The phase of a handshake that awaits a message is told by its role and the pattern. -/
theorem phase_eq (hc : Coherent h) (hdue : h.phase = .write ∨ h.phase = .read) {role : Role}
    (hrole : h.role = some role) : h.phase = phaseFor h.pattern role h.messageNumber := by
  have hturn := hc.write_iff hdue role hrole
  rw [phaseFor]
  split
  · exact hturn.mpr (Eq.symm ‹_›)
  · rename_i hne
    exact hdue.resolve_left fun hp => hne (hturn.mp hp).symm

end Coherent

/-- The parties write in turn. -/
theorem writer_succ (p : Pattern) (n : Nat) : p.writer (n + 1) = (p.writer n).peer := by
  have hparity : (n + 1) % 2 = 0 ↔ ¬ n % 2 = 0 := by omega
  unfold Pattern.writer
  by_cases hn : n % 2 = 0
  · rw [if_neg (fun h => hparity.mp h hn), if_pos hn]
  · rw [if_pos (hparity.mpr hn), if_neg hn, Role.peer_peer]

/-- After a message that is not the last, the other phase is the one that the pattern tells. -/
theorem phaseFor_succ (p : Pattern) (role : Role) (n : Nat) :
    phaseFor p role (n + 1) = if phaseFor p role n = .write then .read else .write := by
  unfold phaseFor
  rw [writer_succ]
  cases p.writer n <;> cases role <;> rfl

/-- A message takes a handshake to the phase that the pattern tells for the next one, or to the
split. -/
theorem advance_phase {h : Handshake} {role : Role}
    (hphase : h.phase = phaseFor h.pattern role h.messageNumber) :
    h.advance.phase = if h.messageNumber + 1 < h.pattern.messages.length then
      phaseFor h.pattern role (h.messageNumber + 1) else .split := by
  show (if h.pattern.messages.length ≤ h.messageNumber + 1 then Phase.split
    else if h.phase = .write then .read else .write) = _
  by_cases hlast : h.pattern.messages.length ≤ h.messageNumber + 1
  · rw [if_pos hlast, if_neg (Nat.not_lt.mpr hlast)]
  · rw [if_neg hlast, if_pos (Nat.not_le.mp hlast), phaseFor_succ, hphase]

namespace Coherent

variable {h : Handshake}

/-- A message that goes through keeps a handshake coherent. -/
theorem advance (hc : Coherent h) (hdue : h.phase = .write ∨ h.phase = .read) (slots : KeySlots)
    {s : SymmetricState} (hs : s.inPrologue = false) :
    Coherent { h with slots, symmetric := some s }.advance := by
  obtain ⟨⟨role, hrole⟩, -, hfail, hhash⟩ := hc.due hdue
  have hlt := hc.number_lt hdue
  have hphase : { h with slots, symmetric := some s }.advance.phase = _ :=
    advance_phase (hc.phase_eq hdue hrole)
  by_cases hmore : h.messageNumber + 1 < h.pattern.messages.length
  · have hpro : s.inPrologue = true ↔ h.messageNumber + 1 = 0 := by simp [hs]
    exact of_due hrole rfl hfail hhash hmore (hphase.trans (if_pos hmore)) hpro
  · have hnumber : h.messageNumber + 1 = h.pattern.messages.length := by omega
    exact of_split hrole rfl hfail hhash hnumber (hphase.trans (if_neg hmore)) hs

/-- A message call keeps a handshake coherent, however it ends. -/
theorem ends {h' : Handshake} {turn : Phase} {short : Prop} {res : Except Error Nat}
    (hc : Coherent h) (hturn : turn.awaitsMessage = true) (hends : Ends h turn short h' res) :
    Coherent h' := by
  cases hends with
  | tooSmall _ _ => exact hc
  | idle _ _ => exact hc
  | @failed slots e hdue _ _ =>
    have hphase : h.phase ≠ .finished := by
      intro hp
      rw [hp] at hdue
      cases hdue
    exact (hc.keys slots h.psk).fail hphase e
  | done hp _ hs =>
    rw [← hp, awaitsMessage_iff] at hturn
    exact hc.advance hturn _ hs

/-! ## One call -/

theorem changed (hc : Coherent h) {call : Call} (hkeys : call.changesKeys = true) :
    Coherent (h.after call) := by
  obtain ⟨slots, psk, hafter, -⟩ := after_keys h hkeys
  rw [hafter]
  exact hc.keys slots psk

theorem start (hc : Coherent h) (role : Role) (prologue : Bytes) :
    Coherent (h.start role prologue).1 := by
  unfold Handshake.start
  split
  · rename_i hp
    have hfail := hc.failure_none (by simp [hp])
    have hhash := hc.finalHash_none (by simp [hp])
    have hkeys := hc.keys (h.pattern.forgetStale h.slots) h.psk
    dsimp only
    split
    · obtain ⟨s, hmix, hpro, -⟩ :=
        SymmetricState.mixPrologue_ok (s := SymmetricState.start h.protocol.name
          h.protocol.suite.cipher h.protocol.suite.digest) rfl prologue
      have hlt : 0 < h.pattern.messages.length := by
        cases h.pattern <;> decide
      simp only [hmix]
      exact @of_due _ role s rfl rfl hfail hhash hlt rfl (by simp [hpro])
    · exact hkeys.fail (by simp [hp]) _
  · exact hc
  · exact hc

theorem startFallback (hc : Coherent h) (attempt : Handshake) (role : Role) (prologue : Bytes) :
    Coherent (h.startFallback attempt role prologue).1 := by
  unfold Handshake.startFallback
  split
  · rename_i hcond
    have hp : h.phase = .initial := by
      simp only [Bool.and_eq_true, beq_iff_eq] at hcond
      exact hcond.1.2
    split
    · exact (hc.keys _ h.psk).start role prologue
    · exact hc.fail (by simp [hp]) _
  · exact hc

/-- Until the first message is through, a section of prologue is taken. -/
theorem addPrologue_ok (hc : Coherent h) (hdue : h.phase = .write ∨ h.phase = .read)
    (hn : h.messageNumber = 0) (prologue : Bytes) :
    ∃ s, h.addPrologue prologue = .ok { h with symmetric := some s } ∧ s.inPrologue = true := by
  obtain ⟨s, hsym, hpro⟩ := hc.inPrologue_iff.mpr ⟨hdue, hn⟩
  obtain ⟨s', hmix, hpro', -⟩ := SymmetricState.mixPrologue_ok hpro prologue
  refine ⟨s', ?_, hpro'⟩
  rcases hdue with hp | hp <;>
    simp only [Handshake.addPrologue, hp, hn, if_true, hsym, hmix] <;> rfl

/-- Afterwards, or before the start, it is refused. -/
theorem addPrologue_error (hnot : ¬ ((h.phase = .write ∨ h.phase = .read) ∧ h.messageNumber = 0))
    (prologue : Bytes) : ∃ e, h.addPrologue prologue = .error e := by
  have hphase : ¬ (h.phase = .write ∨ h.phase = .read) ∨ ¬ h.messageNumber = 0 :=
    Decidable.not_and_iff_or_not.mp hnot
  unfold Handshake.addPrologue
  cases hp : h.phase with
  | write | read =>
    have hn : ¬ h.messageNumber = 0 := hphase.resolve_left (by simp [hp])
    exact ⟨.wrongState, if_neg hn⟩
  | initial | split | finished => exact ⟨.wrongState, rfl⟩
  | failed => exact ⟨.handshakeFailed, rfl⟩

theorem addPrologue (hc : Coherent h) (prologue : Bytes) :
    Coherent (h.settle (h.addPrologue prologue)) := by
  by_cases hopen : (h.phase = .write ∨ h.phase = .read) ∧ h.messageNumber = 0
  · obtain ⟨hdue, hn⟩ := hopen
    obtain ⟨⟨role, hrole⟩, -, hfail, hhash⟩ := hc.due hdue
    obtain ⟨s, hadd, hpro⟩ := hc.addPrologue_ok hdue hn prologue
    rw [hadd]
    exact of_due hrole rfl hfail hhash (hc.number_lt hdue) (hc.phase_eq hdue hrole)
      ⟨fun _ => hn, fun _ => hpro⟩
  · obtain ⟨e, hadd⟩ := addPrologue_error hopen prologue
    rw [hadd]
    exact hc

theorem abandon (hc : Coherent h) : Coherent h.abandon := by
  unfold Handshake.abandon
  split
  · rename_i hdue
    refine hc.fail ?_ _
    intro hp
    rw [hp] at hdue
    cases hdue
  · exact hc

/-- The split takes what there is in the phase that it is due in. -/
theorem split_ok (hc : Coherent h) (hp : h.phase = .split) :
    ∃ role s, h.role = some role ∧ h.symmetric = some s ∧
      h.split = ({ h with
        symmetric := none
        slots := h.slots.removeEphemerals
        phase := .finished
        finalHash := some s.split.1 },
        .ok (match role with
          | .initiator => s.split.2
          | .responder => s.split.2.swap)) := by
  obtain ⟨role, hrole⟩ := Option.isSome_iff_exists.mp (hc.role_isSome (by simp [hp]))
  obtain ⟨s, hsym⟩ := Option.isSome_iff_exists.mp (hc.symmetric_iff.mpr (by simp [hp]))
  refine ⟨role, s, hrole, hsym, ?_⟩
  simp only [Handshake.split, hp, hrole, hsym]
  cases role <;> rfl

theorem split_error (hp : h.phase ≠ .split) : h.split = (h, .error .wrongState) := by
  unfold Handshake.split
  split
  · rename_i hphase _ _
    exact absurd hphase hp
  · rfl

theorem split (hc : Coherent h) : Coherent h.split.1 := by
  by_cases hp : h.phase = .split
  · obtain ⟨role, s, hrole, hsym, hsplit⟩ := hc.split_ok hp
    have hfail := hc.failure_none (by simp [hp])
    rw [hsplit]
    refine ⟨by simp, ?_, by simp, fun _ => by simp [hrole], by simp, by simp, ?_, by simp⟩
    · simp [hfail]
    · exact fun _ => hc.number_eq (Or.inl hp)
  · rw [split_error hp]
    exact hc

theorem clear (h : Handshake) : Coherent h.clear := by
  constructor <;> simp [Handshake.clear]

end Coherent

/-- Every call keeps a handshake coherent, be it successful or not. -/
theorem coherent_after {h : Handshake} (hc : Coherent h) (call : Call) :
    Coherent (h.after call) := by
  cases call with
  | setLocalKeyPair | setLocalPrivateKey | generateLocalKeyPair | setLocalEphemeral
  | setRemotePublicKey | setPresharedKey | removeKey => exact hc.changed rfl
  | start role prologue => exact hc.start role prologue
  | startFallback attempt role prologue => exact hc.startFallback attempt role prologue
  | addPrologue prologue => exact hc.addPrologue prologue
  | write payload area entropy => exact hc.ends rfl (h.write_ends payload area entropy)
  | read message area => exact hc.ends rfl (h.read_ends message area)
  | abandon => exact hc.abandon
  | split => exact hc.split
  | clear => exact Coherent.clear h

/-- So does every sequence of calls. -/
theorem coherent_afterAll {h : Handshake} (hc : Coherent h) (calls : List Call) :
    Coherent (h.afterAll calls) :=
  afterAll_keeps (P := Coherent) (Q := fun _ => True) (fun _ call _ hc => coherent_after hc call)
    (fun _ _ => trivial) hc

/-! ## What follows -/

/-- The handshake hash is there once all messages are through. -/
theorem Coherent.hash_iff {h : Handshake} (hc : Coherent h) :
    (∃ hash, h.hash = .ok hash) ↔ h.phase = .split ∨ h.phase = .finished := by
  unfold Handshake.hash
  cases hp : h.phase with
  | initial | write | read | failed => simp
  | split =>
    obtain ⟨s, hsym⟩ := Option.isSome_iff_exists.mp (hc.symmetric_iff.mpr (by simp [hp]))
    simp [hsym]
  | finished =>
    obtain ⟨hash, hhash⟩ := Option.isSome_iff_exists.mp (hc.finalHash_iff.mpr hp)
    simp [hhash]

theorem Coherent.split_iff {h : Handshake} (hc : Coherent h) :
    (∃ ciphers, h.split.2 = .ok ciphers) ↔ h.phase = .split := by
  constructor
  · rintro ⟨ciphers, hsplit⟩
    by_cases hp : h.phase = .split
    · exact hp
    · rw [split_error hp] at hsplit
      cases hsplit
  · intro hp
    obtain ⟨role, s, -, -, hsplit⟩ := hc.split_ok hp
    rw [hsplit]
    exact ⟨_, rfl⟩

/-- A transport can be made exactly when the ciphers can be taken. -/
theorem Coherent.transport_iff {h : Handshake} (hc : Coherent h) :
    (∃ t, Transport.ofHandshake h = .ok t) ↔ h.phase = .split := by
  constructor
  · rintro ⟨t, ht⟩
    by_cases hp : h.phase = .split
    · exact hp
    · rw [Transport.ofHandshake, split_error hp] at ht
      cases ht
  · intro hp
    obtain ⟨role, s, -, -, hsplit⟩ := hc.split_ok hp
    rw [Transport.ofHandshake, hsplit]
    exact ⟨_, rfl⟩

/-- Whatever calls are made on a new handshake, its fields hang together. Hence a section of
prologue is never refused between the start and the end of the first message; the hash can be had
exactly when all messages are through; and the ciphers exactly once, before they have been taken. -/
theorem reached_coherent (protocol : Protocol) (calls : List Call) :
    let h := (new protocol).afterAll calls
    Coherent h ∧
    (∀ prologue, (∃ h', h.addPrologue prologue = .ok h') ↔
      (h.phase = .write ∨ h.phase = .read) ∧ h.messageNumber = 0) ∧
    ((∃ hash, h.hash = .ok hash) ↔ h.phase = .split ∨ h.phase = .finished) ∧
    ((∃ ciphers, h.split.2 = .ok ciphers) ↔ h.phase = .split) ∧
    ((∃ t, Transport.ofHandshake h = .ok t) ↔ h.phase = .split) := by
  intro h
  have hc : Coherent h := coherent_afterAll (coherent_new protocol) calls
  refine ⟨hc, fun prologue => ⟨?_, ?_⟩, hc.hash_iff, hc.split_iff, hc.transport_iff⟩
  · rintro ⟨h', hadd⟩
    by_cases hopen : (h.phase = .write ∨ h.phase = .read) ∧ h.messageNumber = 0
    · exact hopen
    · obtain ⟨e, herr⟩ := Coherent.addPrologue_error hopen prologue
      rw [herr] at hadd
      cases hadd
  · rintro ⟨hdue, hn⟩
    obtain ⟨s, hadd, -⟩ := hc.addPrologue_ok hdue hn prologue
    exact ⟨_, hadd⟩

end NoiseChannel.Handshake
