import NoiseChannel.Proofs.Symmetric

/-!
# Refused operations on a symmetric state

`SymmetricState.Call` lists the operations on a symmetric state, `perform` makes one of them and
`trace` a sequence. A refused operation keeps chaining key and cipher, but it ends the prologue
phase (`perform_refused`). All operations other than taking prologue end that phase themselves
before they do anything else (`perform_endPrologue`), so that the refusal goes unnoticed unless a
section of prologue follows it.
-/

namespace NoiseChannel.SymmetricState

/-! ## Operations -/

/-- An operation on a symmetric state, with its arguments. -/
inductive Call where
  | mixPrologue (piece : Bytes)
  | mixKey (material : Bytes)
  | mixHash (data : Bytes)
  | mixKeyAndHash (material : Bytes)
  | encryptAndHash (plaintext area : Bytes)
  | decryptAndHash (ciphertext area : Bytes)
  | clear
deriving DecidableEq, Repr

/-- Performs an operation. One that writes no bytes leaves an empty area behind. -/
def perform (s : SymmetricState) : Call → Outcome SymmetricState
  | .mixPrologue piece =>
    match s.mixPrologue piece with
    | .ok s' => ⟨s', [], .ok 0⟩
    | .error e => ⟨s, [], .error e⟩
  | .mixKey material => ⟨s.mixKey material, [], .ok 0⟩
  | .mixHash data => ⟨s.mixHash data, [], .ok 0⟩
  | .mixKeyAndHash material => ⟨s.mixKeyAndHash material, [], .ok 0⟩
  | .encryptAndHash plaintext area => s.encryptAndHash plaintext area
  | .decryptAndHash ciphertext area => s.decryptAndHash ciphertext area
  | .clear => ⟨s.clear, [], .ok 0⟩

/-- What the operations of a sequence leave behind, one after the other. -/
def trace (s : SymmetricState) : List Call → List (Outcome SymmetricState)
  | [] => []
  | call :: calls => s.perform call :: (s.perform call).state.trace calls

/-- The state after a sequence of operations, be they refused or not. -/
def afterAll (s : SymmetricState) (calls : List Call) : SymmetricState :=
  calls.foldl (fun s call => (s.perform call).state) s

/-- Whether an operation takes a section of prologue. -/
def Call.addsPrologue : Call → Bool
  | .mixPrologue _ => true
  | .mixKey _ | .mixHash _ | .mixKeyAndHash _ | .encryptAndHash .. | .decryptAndHash .. | .clear =>
    false

/-! ## What the end of the prologue phase changes -/

theorem split_endPrologue (s : SymmetricState) : s.endPrologue.split = s.split := by
  rw [split, split, endPrologue_endPrologue]

theorem clear_endPrologue (s : SymmetricState) : s.endPrologue.clear = s.clear := by
  unfold endPrologue
  split <;> rfl

/-- Every operation but taking prologue ends the prologue phase first. -/
theorem perform_endPrologue (s : SymmetricState) {call : Call} (hcall : call.addsPrologue = false) :
    s.endPrologue.perform call = s.perform call := by
  cases call with
  | mixPrologue piece => cases hcall
  | mixKey material => rw [perform, perform, mixKey, mixKey, endPrologue_endPrologue]
  | mixHash data => rw [perform, perform, mixHash, mixHash, endPrologue_endPrologue]
  | mixKeyAndHash material =>
    rw [perform, perform, mixKeyAndHash, mixKeyAndHash, endPrologue_endPrologue]
  | encryptAndHash plaintext area =>
    rw [perform, perform, encryptAndHash, encryptAndHash, endPrologue_endPrologue]
  | decryptAndHash ciphertext area =>
    rw [perform, perform, decryptAndHash, decryptAndHash, endPrologue_endPrologue]
  | clear => rw [perform, perform, clear_endPrologue]

/-- A section of prologue is taken as long as the phase lasts. -/
theorem result_perform_mixPrologue (s : SymmetricState) (piece : Bytes) :
    (s.perform (.mixPrologue piece)).result =
      if s.inPrologue then .ok 0 else .error .wrongState := by
  cases hpro : s.inPrologue with
  | true =>
    obtain ⟨s', hmix, -⟩ := mixPrologue_ok hpro piece
    rw [perform, hmix]
    rfl
  | false =>
    rw [perform, mixPrologue_ended hpro]
    rfl

/-- To have ended the prologue phase early is noticed by an operation that takes prologue, and only
if it is the first. -/
theorem trace_endPrologue_iff (s : SymmetricState) (calls : List Call) :
    s.endPrologue.trace calls = s.trace calls ↔
      s.inPrologue = false ∨ ∀ piece, calls.head? ≠ some (.mixPrologue piece) := by
  constructor
  · intro hsame
    cases hpro : s.inPrologue with
    | false => exact Or.inl rfl
    | true =>
      refine Or.inr fun piece hhead => ?_
      obtain ⟨later, rfl⟩ := List.head?_eq_some_iff.mp hhead
      have hfirst : s.endPrologue.perform (.mixPrologue piece) = s.perform (.mixPrologue piece) :=
        (List.cons.inj hsame).1
      have hresult := congrArg Outcome.result hfirst
      rw [result_perform_mixPrologue, result_perform_mixPrologue, inPrologue_endPrologue,
        hpro] at hresult
      cases hresult
  · rintro (hended | hhead)
    · rw [endPrologue_of_ended hended]
    · cases calls with
      | nil => rfl
      | cons call calls =>
        have hcall : call.addsPrologue = false := by
          cases call with
          | mixPrologue piece => exact absurd rfl (hhead piece)
          | mixKey | mixHash | mixKeyAndHash | encryptAndHash | decryptAndHash | clear => rfl
        rw [trace, trace, perform_endPrologue s hcall]

/-! ## Refusal -/

/-- A refused operation ends the prologue phase and leaves the rest of the state as it is. -/
theorem perform_refused {s : SymmetricState} {call : Call} {e : Error}
    (hrefused : (s.perform call).result = .error e) : (s.perform call).state = s.endPrologue := by
  cases call with
  | mixPrologue piece =>
    cases hpro : s.inPrologue with
    | true =>
      rw [result_perform_mixPrologue, hpro] at hrefused
      cases hrefused
    | false => rw [perform, mixPrologue_ended hpro, endPrologue_of_ended hpro]
  | encryptAndHash plaintext area => exact congrArg Outcome.state (encryptAndHash_error hrefused)
  | decryptAndHash ciphertext area => exact decryptAndHash_error hrefused
  | mixKey | mixHash | mixKeyAndHash | clear => cases hrefused

/-- Every operation keeps the cipher's key at full length. -/
theorem WellKeyed.perform {s : SymmetricState} (hs : s.WellKeyed) (call : Call) :
    (s.perform call).state.WellKeyed := by
  cases hres : (s.perform call).result with
  | error e =>
    rw [perform_refused hres, WellKeyed, endPrologue_cipher]
    exact hs
  | ok n =>
    cases call with
    | mixPrologue piece =>
      cases hmix : s.mixPrologue piece with
      | ok s' =>
        rw [SymmetricState.perform, hmix, WellKeyed, mixPrologue_cipher hmix]
        exact hs
      | error e =>
        rw [SymmetricState.perform, hmix] at hres
        cases hres
    | mixKey material => exact wellKeyed_mixKey s material
    | mixHash data => exact hs.mixHash data
    | mixKeyAndHash material => exact wellKeyed_mixKeyAndHash s material
    | encryptAndHash plaintext area =>
      have hstate : (s.perform (.encryptAndHash plaintext area)).state = _ :=
        state_encryptAndHash_ok hres
      rw [hstate]
      exact hs.passed _
    | decryptAndHash message area =>
      have hstate : (s.perform (.decryptAndHash message area)).state = _ :=
        state_decryptAndHash_ok hres
      rw [hstate]
      exact hs.passed _
    | clear => exact CipherState.wellKeyed_empty s.cipher.kind

/-- What a refused operation costs, on any state and with any arguments. Chaining key, cipher and
what the split would give are kept. The state is the one before exactly if the prologue phase was
over by then; otherwise its hash has closed over the prologue so far, and further operations go as
if the refused one had not been made exactly if the first of them is not to take more prologue. -/
theorem refused_undone_iff {s : SymmetricState} {call : Call} {e : Error}
    (hrefused : (s.perform call).result = .error e) :
    let s' := (s.perform call).state
    s'.chainingKey = s.chainingKey ∧ s'.cipher = s.cipher ∧ s'.split = s.split ∧
      (s' = s ↔ s.inPrologue = false) ∧
      ∀ calls, s'.trace calls = s.trace calls ↔
        s.inPrologue = false ∨ ∀ piece, calls.head? ≠ some (.mixPrologue piece) := by
  intro s'
  have hs' : s' = s.endPrologue := perform_refused hrefused
  rw [hs']
  exact ⟨s.endPrologue_chainingKey, s.endPrologue_cipher, s.split_endPrologue,
    s.endPrologue_eq_self_iff, s.trace_endPrologue_iff⟩

/-- Under a key, encryption into too small an area can be made up for with a larger one. -/
theorem refused_undone_larger :
    let s := (start "Noise_XX_25519_ChaChaPoly_SHA256" .chaChaPoly .sha256).mixKey [7]
    let refused := s.perform (.encryptAndHash [1, 2] [0])
    let larger : List Call := [.encryptAndHash [1, 2] (Bytes.zeros 18)]
    refused.result = .error .bufferTooSmall ∧ refused.state = s ∧
      refused.state.trace larger = s.trace larger := by
  intro s refused larger
  have hrefused : refused.result = .error .bufferTooSmall := rfl
  obtain ⟨-, -, -, hsame, htrace⟩ :=
    @refused_undone_iff s (.encryptAndHash [1, 2] [0]) _ hrefused
  exact ⟨hrefused, hsame.mpr rfl, (htrace larger).mpr (Or.inl rfl)⟩

/-- Before there is a key, decryption into too small an area takes the second section of prologue
away. -/
theorem refused_ends_prologue :
    let fresh := start "Noise_XX_25519_ChaChaPoly_SHA256" .chaChaPoly .sha256
    let s := (fresh.perform (.mixPrologue [1])).state
    let refused := s.perform (.decryptAndHash [10, 11, 12, 13] [0])
    refused.result = .error .bufferTooSmall ∧
      s.inPrologue = true ∧ refused.state.inPrologue = false ∧ refused.state.hash ≠ s.hash ∧
      (s.perform (.mixPrologue [2])).result = .ok 0 ∧
      (refused.state.perform (.mixPrologue [2])).result = .error .wrongState := by
  refine ⟨rfl, rfl, rfl, ?_, rfl, rfl⟩
  decide +kernel

end NoiseChannel.SymmetricState
