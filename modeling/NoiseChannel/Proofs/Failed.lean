import NoiseChannel.Proofs.Reachable

/-!
# Failed handshakes

A handshake that has failed refuses whatever can be refused and gives away no byte (`inert`). All
calls but clearing leave it exactly as it is (`after_failed`), and once cleared it is left alone by
clearing as well (`after_clear`); by induction so do sequences of calls.
-/

namespace NoiseChannel.Handshake

/-! ## Answers -/

/-- Whether a call may be refused. Giving up and clearing are always done. -/
def Call.refusable : Call → Bool
  | .abandon | .clear => false
  | .setLocalKeyPair _ | .setLocalPrivateKey _ | .generateLocalKeyPair _ | .setLocalEphemeral _
  | .setRemotePublicKey _ | .setPresharedKey _ | .removeKey _ | .start .. | .startFallback ..
  | .addPrologue _ | .write .. | .read .. | .split => true

/-- Whether a call is done, or why it is refused. -/
def answer (h : Handshake) : Call → Except Error Unit
  | .setLocalKeyPair pair => (h.setLocalKeyPair pair).map fun _ => ()
  | .setLocalPrivateKey secret => (h.setLocalPrivateKey secret).map fun _ => ()
  | .generateLocalKeyPair entropy => (h.generateLocalKeyPair entropy).map fun _ => ()
  | .setLocalEphemeral pair => (h.setLocalEphemeral pair).map fun _ => ()
  | .setRemotePublicKey key => (h.setRemotePublicKey key).map fun _ => ()
  | .setPresharedKey bytes => (h.setPresharedKey bytes).map fun _ => ()
  | .removeKey id => (h.removeKey id).map fun _ => ()
  | .start role prologue => (h.start role prologue).2
  | .startFallback attempt role prologue => (h.startFallback attempt role prologue).2
  | .addPrologue prologue => (h.addPrologue prologue).map fun _ => ()
  | .write payload area entropy => (h.write payload area entropy).1.result.map fun _ => ()
  | .read message area => (h.read message area).result.map fun _ => ()
  | .split => h.split.2.map fun _ => ()
  | .abandon | .clear => .ok ()

/-! ## A failed handshake -/

section Failed

variable {h : Handshake}

theorem checkKeysMutable_failed (hfailed : h.phase = .failed) :
    h.checkKeysMutable = .error .handshakeFailed := by
  rw [checkKeysMutable, hfailed]

theorem startFallback_failed (hfailed : h.phase = .failed) (attempt : Handshake) (role : Role)
    (prologue : Bytes) : h.startFallback attempt role prologue = (h, .error .wrongState) := by
  rw [startFallback, hfailed]
  simp

theorem refusal_failed (hfailed : h.phase = .failed) {turn : Phase}
    (hturn : turn.awaitsMessage = true) : h.refusal? turn = some (h, .handshakeFailed) := by
  have hne : ¬ h.phase = turn := by
    rintro rfl
    rw [hfailed] at hturn
    cases hturn
  rw [refusal?, if_neg hne, hfailed]

theorem write_failed (hfailed : h.phase = .failed) (payload area : Bytes) (entropy : Entropy) :
    h.write payload area entropy = (⟨h, area, .error .handshakeFailed⟩, entropy) := by
  rw [write, refusal_failed hfailed rfl]

theorem read_failed (hfailed : h.phase = .failed) (message area : Bytes) :
    h.read message area = ⟨h, area, .error .handshakeFailed⟩ := by
  rw [read, refusal_failed hfailed rfl]

/-- Every call but clearing leaves a failed handshake as it is, and is refused if that is possible. -/
theorem after_failed (hfailed : h.phase = .failed) {call : Call} (hcall : call ≠ .clear) :
    h.after call = h ∧ (call.refusable = true → ∃ e, h.answer call = .error e) := by
  have hkeys := checkKeysMutable_failed hfailed
  have hsplit : h.split = (h, .error .wrongState) :=
    Coherent.split_error (by rw [hfailed]; decide)
  -- each call looks at the phase in a way of its own
  cases call with
  | setLocalKeyPair | setLocalPrivateKey | generateLocalKeyPair | setLocalEphemeral
  | setRemotePublicKey | setPresharedKey | removeKey =>
    refine ⟨after_keys_fixed rfl hkeys, fun _ => ?_⟩
    simp only [answer, setLocalKeyPair, setLocalPrivateKey, generateLocalKeyPair,
      setLocalEphemeral, setRemotePublicKey, setPresharedKey, removeKey, changeSlots, hkeys]
    exact ⟨_, rfl⟩
  | start role prologue =>
    have hstart : h.start role prologue = (h, .error .handshakeFailed) := by rw [start, hfailed]
    exact ⟨congrArg Prod.fst hstart, fun _ => ⟨_, congrArg Prod.snd hstart⟩⟩
  | startFallback attempt role prologue =>
    have hstart := startFallback_failed hfailed attempt role prologue
    exact ⟨congrArg Prod.fst hstart, fun _ => ⟨_, congrArg Prod.snd hstart⟩⟩
  | addPrologue prologue =>
    have hadd : h.addPrologue prologue = .error .handshakeFailed := by rw [addPrologue, hfailed]
    rw [after, answer, hadd]
    exact ⟨rfl, fun _ => ⟨_, rfl⟩⟩
  | write payload area entropy =>
    rw [after, answer, write_failed hfailed]
    exact ⟨rfl, fun _ => ⟨_, rfl⟩⟩
  | read message area =>
    rw [after, answer, read_failed hfailed]
    exact ⟨rfl, fun _ => ⟨_, rfl⟩⟩
  | abandon =>
    have hidle : h.phase.awaitsMessage = false := by rw [hfailed]; rfl
    rw [after, abandon, if_neg (by simp [hidle])]
    refine ⟨rfl, fun hcall => ?_⟩
    cases hcall
  | split =>
    rw [after, answer, hsplit]
    exact ⟨rfl, fun _ => ⟨_, rfl⟩⟩
  | clear => exact absurd rfl hcall

/-- What a handshake that has failed gives: nothing. -/
structure Inert (h : Handshake) : Prop where
  phase_eq : h.phase = .failed
  /-- No message is foretold. -/
  nextOverhead_eq : h.nextOverhead = 0
  /-- Every call that may be refused is refused. -/
  refuses : ∀ call : Call, call.refusable = true → ∃ e, h.answer call = .error e
  /-- There is no hash, -/
  hash_error : ∃ e, h.hash = .error e
  /-- and no transport. -/
  transport_error : ∃ e, Transport.ofHandshake h = .error e
  /-- No message is written: the area keeps its contents and no randomness is drawn. -/
  write_eq : ∀ payload area entropy, ∃ e,
    h.write payload area entropy = (⟨h, area, .error e⟩, entropy)
  /-- No payload is read. -/
  read_eq : ∀ message area, ∃ e, h.read message area = ⟨h, area, .error e⟩

theorem inert (hfailed : h.phase = .failed) : Inert h where
  phase_eq := hfailed
  nextOverhead_eq := by
    unfold nextOverhead
    rw [hfailed]
    split <;> rfl
  refuses := by
    intro call hcall
    refine (after_failed hfailed ?_).2 hcall
    rintro rfl
    cases hcall
  hash_error := ⟨.wrongState, by simp only [hash, hfailed]⟩
  transport_error := by
    refine ⟨.wrongState, ?_⟩
    rw [Transport.ofHandshake, Coherent.split_error (by rw [hfailed]; decide)]
  write_eq := fun payload area entropy => ⟨_, write_failed hfailed payload area entropy⟩
  read_eq := fun message area => ⟨_, read_failed hfailed message area⟩

theorem afterAll_failed (hfailed : h.phase = .failed) {calls : List Call}
    (hcalls : .clear ∉ calls) : h.afterAll calls = h := by
  refine afterAll_keeps (P := fun h' => h' = h) (Q := fun call => call ≠ .clear) ?_ ?_ rfl
  · rintro _ call hcall rfl
    exact (after_failed hfailed hcall).1
  · rintro call hmem rfl
    exact hcalls hmem

end Failed

/-! ## A cleared handshake -/

theorem after_clear (h : Handshake) (call : Call) : h.clear.after call = h.clear := by
  have hfailed : h.clear.phase = .failed := rfl
  by_cases hcall : call = .clear
  · rw [hcall]
    rfl
  · exact (after_failed hfailed hcall).1

theorem afterAll_clear (h : Handshake) (calls : List Call) :
    h.clear.afterAll calls = h.clear := by
  refine afterAll_keeps (P := fun h' => h' = h.clear) (Q := fun _ => True) ?_
    (fun _ _ => trivial) rfl
  rintro _ call - rfl
  exact after_clear h call

theorem hasKey_clear (h : Handshake) (id : KeyId) : h.clear.hasKey id = false := by
  cases id <;> rfl

theorem phase_afterAll_failed {h : Handshake} (hfailed : h.phase = .failed) (calls : List Call) :
    (h.afterAll calls).phase = .failed := by
  refine afterAll_keeps (P := fun h' => h'.phase = .failed) (Q := fun _ => True) ?_
    (fun _ _ => trivial) hfailed
  intro h' call _ hfailed'
  by_cases hcall : call = .clear
  · rw [hcall]
    rfl
  · rw [(after_failed hfailed' hcall).1]
    exact hfailed'

/-- Failure is final, for any handshake whatever: calls that follow it find the handshake failed,
are refused and yield no byte, and unless the handshake is cleared its failure and its keys stay as
they are. A handshake that is cleared, failed or not, holds no key and never comes by one again. -/
theorem failure_is_final (h : Handshake) :
    (h.phase = .failed → ∀ calls : List Call,
      Inert (h.afterAll calls) ∧
        (.clear ∉ calls → (h.afterAll calls).failure = h.failure ∧
          (h.afterAll calls).slots = h.slots ∧ (h.afterAll calls).psk = h.psk)) ∧
    ∀ (calls : List Call) (id : KeyId), (h.clear.afterAll calls).hasKey id = false := by
  refine ⟨fun hfailed calls => ⟨inert (phase_afterAll_failed hfailed calls), fun hcalls => ?_⟩,
    fun calls id => ?_⟩
  · rw [afterAll_failed hfailed hcalls]
    exact ⟨rfl, rfl, rfl⟩
  · rw [afterAll_clear]
    exact hasKey_clear h id

/-- Without its pre-shared key a handshake fails as it is started. To bring the key then, and to start
once more, is of no avail; the static pair stays until it is cleared. -/
theorem failure_is_final_nnPsk0 :
    let fresh : Handshake := { Handshake.new .nnPsk0ChaChaPolySha256 with
      slots := { localStatic := some (KeyPair.ofSecret ⟨Bytes.zeros 32, rfl⟩) } }
    let h := (fresh.start .initiator [1]).1
    let calls : List Call := [.setPresharedKey (Bytes.zeros 32), .start .initiator [1], .abandon]
    Inert (h.afterAll calls) ∧ (h.afterAll calls).failure = some .missingKey ∧
      (h.afterAll calls).hasKey .localStatic = true ∧
      (h.clear.afterAll calls).hasKey .localStatic = false := by
  intro fresh h calls
  obtain ⟨hfinal, hcleared⟩ := failure_is_final h
  obtain ⟨hinert, hkept⟩ := hfinal rfl calls
  obtain ⟨hfailure, hslots, -⟩ := hkept (by simp [calls])
  refine ⟨hinert, hfailure, ?_, hcleared calls .localStatic⟩
  rw [hasKey, hslots]
  rfl

end NoiseChannel.Handshake
