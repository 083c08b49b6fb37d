import NoiseChannel.Handshake.KeySlots
import NoiseChannel.Proofs.Symmetric

/-!
# Two symmetric states in step

The two parties of a handshake have a symmetric state each. They mix the same data into both, and
what the one encrypts the other decrypts. Encryption hashes what it has written and decryption what
it has been given, and each has its own way through the cipher; none of this shows in the states.
If they are equal before a step they are equal after it, whichever party sends (`Both.after`), and
so they are throughout a sequence of steps (`Both.before`).
-/

namespace NoiseChannel

/-! ## From one state to an equal one -/

namespace SymmetricState

variable {s : SymmetricState} {plaintext area : Bytes}

/-- What has been encrypted is the ciphertext, and the state is the one behind it. -/
theorem encryptAndHash_written (hs : s.WellKeyed) {n : Nat}
    (h : (s.encryptAndHash plaintext area).result = .ok n) :
    (s.encryptAndHash plaintext area).written = .ok (s.ciphertext plaintext) ∧
      (s.encryptAndHash plaintext area).state = s.passed (s.ciphertext plaintext) := by
  obtain ⟨-, hsent⟩ := encryptAndHash_sent hs h
  constructor
  · unfold Outcome.written
    rw [h]
    exact congrArg Except.ok hsent
  · rw [state_encryptAndHash_ok h, hsent]

/-- The ciphertext is decrypted wherever there is room for the plaintext. -/
theorem decryptAndHash_written (hs : s.WellKeyed) (hn : ¬ s.cipher.Exhausted) (lent : Bytes) :
    (s.decryptAndHash (s.ciphertext plaintext) lent).written =
      if plaintext.length ≤ lent.length then .ok plaintext else .error .bufferTooSmall := by
  unfold Outcome.written
  by_cases hroom : plaintext.length ≤ lent.length
  · obtain ⟨hres, -, harea⟩ := decryptAndHash_ciphertext hs hn hroom
    rw [if_pos hroom, hres]
    exact congrArg Except.ok harea
  · have hlen := length_ciphertext hs plaintext
    have hlong : ¬ (s.ciphertext plaintext).length < s.overhead := by omega
    have hshort : lent.length < (s.ciphertext plaintext).length - s.overhead := by omega
    rw [if_neg hroom, result_decryptAndHash, if_neg hn, if_neg hlong, if_pos hshort]
    rfl

end SymmetricState

/-! ## Joint steps -/

/-- What the two parties do, each with its own state. -/
inductive JointStep where
  | mixKey (material : Bytes)
  | mixHash (data : Bytes)
  | mixKeyAndHash (material : Bytes)
  /-- One party encrypts `plaintext` to the front of `area`, and the other one decrypts what has been
  written there to the front of `lent`. -/
  | message (sender : Role) (plaintext area lent : Bytes)

/-- The symmetric states of the two parties. -/
structure Counterparts where
  state : Role → SymmetricState

namespace Counterparts

/-- The states after a step. What cannot be encrypted is not decrypted. -/
def after (p : Counterparts) : JointStep → Counterparts
  | .mixKey material => ⟨fun role => (p.state role).mixKey material⟩
  | .mixHash data => ⟨fun role => (p.state role).mixHash data⟩
  | .mixKeyAndHash material => ⟨fun role => (p.state role).mixKeyAndHash material⟩
  | .message sender plaintext area lent =>
    let sent := (p.state sender).encryptAndHash plaintext area
    let received := match sent.written with
      | .ok message => ((p.state sender.peer).decryptAndHash message lent).state
      | .error _ => p.state sender.peer
    ⟨fun role => if role = sender then sent.state else received⟩

def afterAll (p : Counterparts) (steps : List JointStep) : Counterparts := steps.foldl after p

/-- A message is encrypted with success, and there is room for its plaintext where it is to be
decrypted. -/
def Goes (p : Counterparts) : JointStep → Prop
  | .message sender plaintext area lent =>
    (∃ n, ((p.state sender).encryptAndHash plaintext area).result = .ok n) ∧
      plaintext.length ≤ lent.length
  | .mixKey _ | .mixHash _ | .mixKeyAndHash _ => True

/-- So are all messages of a sequence of steps. -/
def AllGo : Counterparts → List JointStep → Prop
  | _, [] => True
  | p, step :: steps => p.Goes step ∧ (p.after step).AllGo steps

/-- What one party encrypts, the other one decrypts to the plaintext. Nothing but want of room for
the plaintext can stand in the way. -/
def Delivers (p : Counterparts) : JointStep → Prop
  | .message sender plaintext area _ =>
    ∃ message, ((p.state sender).encryptAndHash plaintext area).written = .ok message ∧
      ∀ lent : Bytes, ((p.state sender.peer).decryptAndHash message lent).written =
        if plaintext.length ≤ lent.length then .ok plaintext else .error .bufferTooSmall
  | .mixKey _ | .mixHash _ | .mixKeyAndHash _ => True

/-! ## What a step preserves -/

/-- Both parties have the state `s`, and its cipher's key has full length. -/
structure Both (p : Counterparts) (s : SymmetricState) : Prop where
  state_eq : ∀ role, p.state role = s
  wellKeyed : s.WellKeyed

section Both

variable {p : Counterparts} {s : SymmetricState}

theorem Both.delivers (h : p.Both s) {step : JointStep} (hgoes : p.Goes step) :
    p.Delivers step := by
  cases step with
  | message sender plaintext area lent =>
    obtain ⟨⟨n, hres⟩, -⟩ := hgoes
    rw [h.state_eq sender] at hres
    obtain ⟨hn, -⟩ := SymmetricState.encryptAndHash_sent h.wellKeyed hres
    obtain ⟨hwritten, -⟩ := SymmetricState.encryptAndHash_written h.wellKeyed hres
    refine ⟨s.ciphertext plaintext, ?_, ?_⟩
    · rw [h.state_eq sender]
      exact hwritten
    · intro other
      rw [h.state_eq sender.peer]
      exact SymmetricState.decryptAndHash_written h.wellKeyed hn other
  | mixKey | mixHash | mixKeyAndHash => trivial

/-- Both parties have the same state after a step, too. -/
theorem Both.after (h : p.Both s) {step : JointStep} (hgoes : p.Goes step) :
    ∃ s', (p.after step).Both s' := by
  cases step with
  | mixKey material =>
    refine ⟨s.mixKey material, ?_, SymmetricState.wellKeyed_mixKey s material⟩
    intro role
    exact congrArg (SymmetricState.mixKey · material) (h.state_eq role)
  | mixHash data =>
    refine ⟨s.mixHash data, ?_, h.wellKeyed.mixHash data⟩
    intro role
    exact congrArg (SymmetricState.mixHash · data) (h.state_eq role)
  | mixKeyAndHash material =>
    refine ⟨s.mixKeyAndHash material, ?_, SymmetricState.wellKeyed_mixKeyAndHash s material⟩
    intro role
    exact congrArg (SymmetricState.mixKeyAndHash · material) (h.state_eq role)
  | message sender plaintext area lent =>
    obtain ⟨⟨n, hres⟩, hroom⟩ := hgoes
    rw [h.state_eq sender] at hres
    obtain ⟨hn, -⟩ := SymmetricState.encryptAndHash_sent h.wellKeyed hres
    obtain ⟨hwritten, hsent⟩ := SymmetricState.encryptAndHash_written h.wellKeyed hres
    obtain ⟨-, hreceived, -⟩ := SymmetricState.decryptAndHash_ciphertext h.wellKeyed hn hroom
    refine ⟨s.passed (s.ciphertext plaintext), ?_, h.wellKeyed.passed _⟩
    intro role
    simp only [Counterparts.after, h.state_eq, hwritten]
    by_cases hrole : role = sender
    · rw [if_pos hrole, hsent]
    · rw [if_neg hrole, hreceived]

/-- The states are equal before every step of a sequence, and the step can be made. -/
theorem Both.before (h : p.Both s) {before later : List JointStep} {step : JointStep}
    (hgo : p.AllGo (before ++ step :: later)) :
    (p.afterAll before).Goes step ∧ ∃ s', (p.afterAll before).Both s' := by
  induction before generalizing p s with
  | nil => exact ⟨hgo.1, s, h⟩
  | cons first before ih =>
    obtain ⟨hfirst, hlater⟩ := hgo
    obtain ⟨s', h'⟩ := h.after hfirst
    exact ih h' hlater

end Both

/-- Two parties whose symmetric states are equal, with a cipher key of full length if there is one,
take any sequence of steps: both mix in the same data, or either of them encrypts, with success, and
the other one decrypts. At every step, what has been encrypted is decrypted to the plaintext, in
whatever area has room for it; after every step the states are equal, in hash, chaining key, cipher
key, nonce and prologue, and a split of either gives the same hash and the same two ciphers. -/
theorem stay_equal {p : Counterparts} (hequal : p.state .initiator = p.state .responder)
    (hkey : (p.state .initiator).WellKeyed) {steps : List JointStep} (hgo : p.AllGo steps)
    (before later : List JointStep) (step : JointStep) (hsteps : steps = before ++ step :: later) :
    let q := (p.afterAll before).after step
    (p.afterAll before).Delivers step ∧ q.state .initiator = q.state .responder ∧
      (q.state .initiator).split = (q.state .responder).split := by
  intro q
  have hboth : p.Both (p.state .initiator) := by
    refine ⟨?_, hkey⟩
    intro role
    cases role with
    | initiator => rfl
    | responder => exact hequal.symm
  rw [hsteps] at hgo
  obtain ⟨hgoes, s, hbefore⟩ := hboth.before hgo
  obtain ⟨s', hafter⟩ := hbefore.after hgoes
  have hsame : q.state .initiator = q.state .responder := by
    rw [hafter.state_eq, hafter.state_eq]
  exact ⟨hbefore.delivers hgoes, hsame, congrArg SymmetricState.split hsame⟩

/-- The responder answers under a key that has been mixed in after a message in the clear. -/
theorem stay_equal_answered :
    let s := SymmetricState.start "Noise_NN_25519_ChaChaPoly_SHA256" .chaChaPoly .sha256
    let first : List JointStep := [.message .initiator [5] [0] [0], .mixKey [7]]
    let answer : JointStep := .message .responder [1, 2] (Bytes.zeros 18) [0, 0]
    let p := (Counterparts.mk fun _ => s).afterAll first
    p.Delivers answer ∧
      (p.after answer).state .initiator = (p.after answer).state .responder := by
  intro s first answer p
  have hkey : s.WellKeyed := CipherState.wellKeyed_empty _
  have hgo : (Counterparts.mk fun _ => s).AllGo (first ++ [answer]) :=
    ⟨⟨⟨1, rfl⟩, by decide⟩, trivial, ⟨⟨18, rfl⟩, by decide⟩, trivial⟩
  obtain ⟨hdelivers, hsame, -⟩ := stay_equal rfl hkey hgo first [] answer rfl
  exact ⟨hdelivers, hsame⟩

end Counterparts

end NoiseChannel
