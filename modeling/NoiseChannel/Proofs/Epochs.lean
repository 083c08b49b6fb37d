import NoiseChannel.Proofs.Conveyed
import NoiseChannel.Proofs.Nonces
import NoiseChannel.Proofs.Refused

/-!
# Key epochs of a symmetric state

Each operation that mixes in key material begins an epoch, in which messages are sealed and opened
under one key. `Advances` lists what an operation can do to the cipher, and which message it has the
cipher work on; `epochs` sorts those messages by epoch. Their nonces count from zero in each of them
(`counts_epochs`), whichever operations are refused in between.
-/

namespace NoiseChannel.SymmetricState

/-! ## Messages under a key -/

/-- Whether an operation mixes in a new cipher key. -/
def Call.setsKey : Call → Bool
  | .mixKey _ | .mixKeyAndHash _ => true
  | .mixPrologue _ | .mixHash _ | .encryptAndHash .. | .decryptAndHash .. | .clear => false

/-- A message that has been sealed or opened under a key. -/
structure Use where
  kind : CipherKind
  key : Bytes
  nonce : UInt64
  ad : Bytes
  plaintext : Bytes
  message : Bytes
deriving DecidableEq, Repr

/-- The message is the plaintext sealed under key and nonce, and opens to it. -/
def Use.Authentic (u : Use) : Prop :=
  Aead.sealed u.kind u.key u.nonce u.ad u.plaintext = u.message ∧
    Aead.opened? u.kind u.key u.nonce u.ad u.message = some u.plaintext

/-- What there is to record of a message, if there is a key. -/
def record? (s : SymmetricState) (plaintext message : Bytes) : Option Use :=
  s.cipher.key.map fun key =>
    { kind := s.cipher.kind, key, nonce := s.cipher.nonce, ad := s.endPrologue.hash
      plaintext, message }

/-- The message that an operation seals or opens, if it succeeds. -/
def use? (s : SymmetricState) : Call → Option Use
  | .encryptAndHash plaintext area =>
    (s.encryptAndHash plaintext area).written.toOption.bind fun message =>
      s.record? plaintext message
  | .decryptAndHash message area =>
    (s.decryptAndHash message area).written.toOption.bind fun plaintext =>
      s.record? plaintext message
  | .mixPrologue _ | .mixKey _ | .mixHash _ | .mixKeyAndHash _ | .clear => none

/-- The messages before the first new key, and those of every epoch that begins with one. -/
def epochs (s : SymmetricState) : List Call → List Use × List (List Use)
  | [] => ([], [])
  | call :: calls =>
    let (now, later) := (s.perform call).state.epochs calls
    if call.setsKey then ([], now :: later) else ((s.use? call).toList ++ now, later)

/-! ## One operation -/

/-- What an operation can do to a cipher `c`, and the message that it has the cipher work on. -/
inductive Advances (c : CipherState) : Call → Option Use → CipherState → Prop where
  /-- The operation is refused, or it does without the cipher, or the cipher passes data through. -/
  | still {call : Call} : call.setsKey = false → Advances c call none c
  /-- The cipher has a new key, and counts from zero. -/
  | keyed {call : Call} {c' : CipherState} {key : Bytes} : call.setsKey = true →
    c'.key = some key → c'.nonce = 0 → Advances c call none c'
  /-- A message has been sealed or opened. -/
  | used {call : Call} {u : Use} : call.setsKey = false → c.key = some u.key →
    c.nonce ≠ CipherState.reservedNonce → u.nonce = c.nonce → u.Authentic →
    Advances c call (some u) c.advance
  /-- The key is forgotten. -/
  | cleared : Advances c .clear none c.clear

variable {s : SymmetricState}

theorem use?_refused {call : Call} {e : Error} (h : (s.perform call).result = .error e) :
    s.use? call = none := by
  have hwritten : (s.perform call).written.toOption = none := by
    rw [Outcome.written, h]
    rfl
  cases call with
  | encryptAndHash plaintext area => exact congrArg (Option.bind · _) hwritten
  | decryptAndHash message area => exact congrArg (Option.bind · _) hwritten
  | mixPrologue | mixKey | mixHash | mixKeyAndHash | clear => rfl

/-- A message that goes through advances the cipher, if there is a key. -/
theorem advances_passed {call : Call} {plaintext message : Bytes} (hs : s.WellKeyed)
    (hcall : call.setsKey = false) (hn : ¬ s.cipher.Exhausted)
    (hsent : s.ciphertext plaintext = message) :
    Advances s.cipher call (s.record? plaintext message) s.cipher.passed := by
  cases hkey : s.cipher.key with
  | none =>
    have hsame : s.cipher.passed = s.cipher := by rw [CipherState.passed, hkey]
    rw [record?, hkey, hsame]
    exact .still hcall
  | some key =>
    have hnext : s.cipher.passed = s.cipher.advance := by rw [CipherState.passed, hkey]
    have hnonce : s.cipher.nonce ≠ CipherState.reservedNonce := by
      intro hlast
      exact hn ⟨by rw [CipherState.hasKey, hkey]; rfl, hlast⟩
    have hsealed : Aead.sealed s.cipher.kind key s.cipher.nonce s.endPrologue.hash plaintext =
        message := by
      rw [← hsent, ciphertext, CipherState.ciphertext, hkey]
    have hopened := Aead.opened_sealed s.cipher.kind (hs key hkey) s.cipher.nonce
      s.endPrologue.hash plaintext
    rw [hsealed] at hopened
    rw [record?, hkey, hnext]
    exact .used hcall hkey hnonce rfl ⟨hsealed, hopened⟩

/-- Every operation does one of these to the cipher. -/
theorem advances (hs : s.WellKeyed) (call : Call) :
    Advances s.cipher call (s.use? call) (s.perform call).state.cipher := by
  cases hres : (s.perform call).result with
  | error e =>
    have hcall : call.setsKey = false := by
      cases call with
      | mixPrologue | mixHash | encryptAndHash | decryptAndHash | clear => rfl
      | mixKey | mixKeyAndHash => cases hres
    rw [use?_refused hres, perform_refused hres, endPrologue_cipher]
    exact .still hcall
  | ok n =>
    cases call with
    | mixPrologue piece =>
      have hsame : (s.perform (.mixPrologue piece)).state.cipher = s.cipher := by
        cases hmix : s.mixPrologue piece with
        | ok s' => rw [perform, hmix, mixPrologue_cipher hmix]
        | error e => rw [perform, hmix]
      rw [hsame]
      exact .still rfl
    | mixHash data =>
      have hsame : (s.perform (.mixHash data)).state.cipher = s.cipher := mixHash_cipher s data
      rw [hsame]
      exact .still rfl
    | mixKey material => exact .keyed rfl rfl rfl
    | mixKeyAndHash material => exact .keyed rfl rfl rfl
    | encryptAndHash plaintext area =>
      obtain ⟨hn, hsent⟩ := encryptAndHash_sent hs hres
      have huse : s.use? (.encryptAndHash plaintext area) =
          s.record? plaintext (s.ciphertext plaintext) := by
        have hdone : (s.encryptAndHash plaintext area).result = .ok n := hres
        rw [use?, Outcome.written, hdone, ← hsent]
        rfl
      have hstate : (s.perform (.encryptAndHash plaintext area)).state.cipher =
          s.cipher.passed := by
        rw [perform, state_encryptAndHash_ok hres, passed_cipher]
      rw [huse, hstate]
      exact advances_passed hs rfl hn rfl
    | decryptAndHash message area =>
      obtain ⟨plaintext, -, hsent, hn, hdone, harea⟩ := decryptAndHash_ok hs hres
      have huse : s.use? (.decryptAndHash message area) = s.record? plaintext message := by
        have hdone : (s.decryptAndHash message area).result = .ok n := hres
        rw [use?, Outcome.written, hdone, ← harea]
        rfl
      have hstate : (s.perform (.decryptAndHash message area)).state.cipher =
          s.cipher.passed := by
        rw [perform, hdone, passed_cipher]
      rw [huse, hstate]
      exact advances_passed hs rfl hn hsent
    | clear => exact .cleared

/-! ## Sequences of operations -/

/-- The nonces of messages under a key count from `n` on. Where there is no key there are none. -/
structure Counts (key? : Option Bytes) (n : Nat) (uses : List Use) : Prop where
  nonces : uses.map (fun u => u.nonce.toNat) = List.range' n uses.length
  authentic : ∀ u ∈ uses, key? = some u.key ∧ u.Authentic

theorem Counts.nil (key? : Option Bytes) (n : Nat) : Counts key? n [] := ⟨rfl, nofun⟩

theorem Counts.eq_nil {n : Nat} {uses : List Use} (h : Counts none n uses) : uses = [] := by
  cases uses with
  | nil => rfl
  | cons u uses => exact nomatch (h.authentic u List.mem_cons_self).1

theorem Counts.cons {c : CipherState} {u : Use} {uses : List Use} (hkey : c.key = some u.key)
    (hlast : c.nonce ≠ CipherState.reservedNonce) (hnonce : u.nonce = c.nonce)
    (hu : u.Authentic) (h : Counts c.advance.key c.advance.nonce.toNat uses) :
    Counts c.key c.nonce.toNat (u :: uses) := by
  constructor
  · have hnonces := h.nonces
    rw [CipherState.toNat_nonce_advance hlast] at hnonces
    rw [List.map_cons, hnonces, hnonce, List.length_cons, List.range'_succ]
  · intro v hv
    rcases List.mem_cons.mp hv with rfl | hv
    · exact ⟨hkey, hu⟩
    · exact h.authentic v hv

/-- Of the messages before the first new key, the nonces count on from the present one; of those of
every epoch that follows, from zero. -/
theorem counts_epochs (hs : s.WellKeyed) (calls : List Call) :
    Counts s.cipher.key s.cipher.nonce.toNat (s.epochs calls).1 ∧
      ∀ epoch ∈ (s.epochs calls).2, ∃ key, Counts (some key) 0 epoch := by
  induction calls generalizing s with
  | nil => exact ⟨Counts.nil _ _, nofun⟩
  | cons call calls ih =>
    obtain ⟨hnow, hlater⟩ := ih (hs.perform call)
    have hadvances := advances hs call
    rw [epochs]
    generalize (s.perform call).state.epochs calls = run at hnow hlater ⊢
    generalize (s.perform call).state.cipher = c' at hadvances hnow
    generalize s.use? call = use at hadvances ⊢
    dsimp only
    cases hadvances with
    | still hcall =>
      rw [hcall]
      exact ⟨hnow, hlater⟩
    | @keyed _ _ key hcall hkey hzero =>
      rw [hkey, hzero] at hnow
      rw [hcall]
      refine ⟨Counts.nil _ _, ?_⟩
      intro epoch hepoch
      rcases List.mem_cons.mp hepoch with rfl | hepoch
      · exact ⟨key, hnow⟩
      · exact hlater epoch hepoch
    | used hcall hkey hlast hnonce hu =>
      rw [hcall]
      exact ⟨Counts.cons hkey hlast hnonce hu hnow, hlater⟩
    | cleared =>
      rw [hnow.eq_nil]
      exact ⟨Counts.nil _ _, hlater⟩

theorem length_epochs (s : SymmetricState) (calls : List Call) :
    (s.epochs calls).2.length = calls.countP Call.setsKey := by
  induction calls generalizing s with
  | nil => rfl
  | cons call calls ih =>
    have hlater := ih (s.perform call).state
    rw [epochs, List.countP_cons]
    generalize (s.perform call).state.epochs calls = run at hlater ⊢
    cases call.setsKey with
    | true => exact congrArg Nat.succ hlater
    | false => exact hlater

theorem WellKeyed.afterAll (hs : s.WellKeyed) (calls : List Call) :
    (s.afterAll calls).WellKeyed := by
  induction calls generalizing s with
  | nil => exact hs
  | cons call calls ih => exact ih (hs.perform call)

theorem wellKeyed_start (name : String) (cipher : CipherKind) (digest : DigestKind) :
    (start name cipher digest).WellKeyed :=
  CipherState.wellKeyed_empty cipher

/-- Without an operation that mixes in key material there is no key. -/
theorem unkeyed_afterAll (hs : s.WellKeyed) (hkey : s.cipher.key = none) {calls : List Call}
    (hcalls : ∀ call ∈ calls, call.setsKey = false) : (s.afterAll calls).cipher.key = none := by
  induction calls generalizing s with
  | nil => exact hkey
  | cons call calls ih =>
    obtain ⟨hcall, hlater⟩ := List.forall_mem_cons.mp hcalls
    refine ih (hs.perform call) ?_ hlater
    have hadvances := advances hs call
    generalize (s.perform call).state.cipher = c' at hadvances
    generalize s.use? call = use at hadvances
    cases hadvances with
    | still => exact hkey
    | keyed hsets =>
      rw [hcall] at hsets
      cases hsets
    | used _ hsome =>
      rw [hkey] at hsome
      cases hsome
    | cleared => rfl

/-- A key stays, or another one takes its place, until the state is cleared. -/
theorem hasKey_afterAll (hs : s.WellKeyed) (hkey : s.hasKey = true) {calls : List Call}
    (hcalls : ∀ call ∈ calls, call ≠ .clear) : (s.afterAll calls).hasKey = true := by
  induction calls generalizing s with
  | nil => exact hkey
  | cons call calls ih =>
    obtain ⟨hcall, hlater⟩ := List.forall_mem_cons.mp hcalls
    refine ih (hs.perform call) ?_ hlater
    have hadvances := advances hs call
    show (s.perform call).state.cipher.key.isSome = true
    generalize (s.perform call).state.cipher = c' at hadvances
    generalize s.use? call = use at hadvances
    cases hadvances with
    | still => exact hkey
    | keyed _ hsome => rw [hsome]; rfl
    | used _ _ => exact hkey
    | cleared => exact absurd rfl hcall

/-- Whatever operations a state has been through, successful or refused. Unless key material has been
mixed in, the cipher passes data through. Every operation that mixes some in begins an epoch, with a
key and the nonce zero; the messages sealed and opened in it, taken together, have its key and the
nonces zero, one, two and so on, and there are none before the first. A refused operation leaves the
cipher alone, and nothing but clearing the state takes its key away. -/
theorem nonces_in_epochs (name : String) (cipher : CipherKind) (digest : DigestKind)
    (calls : List Call) :
    let fresh := start name cipher digest
    let s := fresh.afterAll calls
    ((∀ call ∈ calls, call.setsKey = false) → ∀ ad data area,
      s.cipher.encrypt ad data area = s.cipher.copy data area ∧
        s.cipher.decrypt ad data area = s.cipher.copy data area) ∧
    (fresh.epochs calls).1 = [] ∧ (fresh.epochs calls).2.length = calls.countP Call.setsKey ∧
    (∀ epoch ∈ (fresh.epochs calls).2,
      epoch.map (fun u => u.nonce.toNat) = List.range epoch.length ∧
        ∃ key, ∀ u ∈ epoch, u.key = key ∧ u.Authentic) ∧
    (∀ call, call.setsKey = true →
      (s.perform call).state.hasKey = true ∧ (s.perform call).state.cipher.nonce = 0) ∧
    (∀ call e, (s.perform call).result = .error e → (s.perform call).state.cipher = s.cipher) ∧
    ∀ later, s.hasKey = true → (∀ call ∈ later, call ≠ .clear) →
      (s.afterAll later).hasKey = true := by
  intro fresh s
  have hfresh : fresh.WellKeyed := wellKeyed_start name cipher digest
  have hs : s.WellKeyed := hfresh.afterAll calls
  obtain ⟨hbefore, hepochs⟩ := counts_epochs hfresh calls
  refine ⟨?_, hbefore.eq_nil, length_epochs fresh calls, ?_, ?_, ?_, ?_⟩
  · intro hcalls ad data area
    have hkey : s.cipher.key = none := unkeyed_afterAll hfresh rfl hcalls
    rw [CipherState.encrypt, CipherState.decrypt, hkey]
    exact ⟨rfl, rfl⟩
  · intro epoch hepoch
    obtain ⟨key, hnonces, hall⟩ := hepochs epoch hepoch
    refine ⟨?_, key, ?_⟩
    · rw [hnonces, List.range_eq_range']
    · intro u hu
      obtain ⟨hkey, hauthentic⟩ := hall u hu
      exact ⟨(Option.some.inj hkey).symm, hauthentic⟩
  · intro call hcall
    cases call with
    | mixKey material => exact ⟨rfl, rfl⟩
    | mixKeyAndHash material => exact ⟨rfl, rfl⟩
    | mixPrologue | mixHash | encryptAndHash | decryptAndHash | clear => cases hcall
  · intro call e hres
    rw [perform_refused hres, endPrologue_cipher]
  · intro later hkey hlater
    exact hasKey_afterAll hs hkey hlater

/-- Two messages and a refused one between them, then one more under the next key. -/
theorem nonces_in_epochs_two :
    let fresh := start "Noise_NN_25519_ChaChaPoly_SHA256" .chaChaPoly .sha256
    let area := Bytes.zeros 18
    let calls : List Call := [.encryptAndHash [1] area, .mixKey [7], .encryptAndHash [1, 2] area,
      .encryptAndHash [1, 2] [0], .encryptAndHash [3, 4] area, .mixKeyAndHash [8],
      .encryptAndHash [5, 6] area]
    (fresh.epochs calls).2.map (·.map fun u => u.nonce.toNat) = [[0, 1], [0]] := by
  intro fresh area calls
  obtain ⟨-, -, -, hepochs, -⟩ :=
    nonces_in_epochs "Noise_NN_25519_ChaChaPoly_SHA256" .chaChaPoly .sha256 calls
  have hlengths : (fresh.epochs calls).2.map List.length = [2, 1] := by decide +kernel
  have hnonces : (fresh.epochs calls).2.map (·.map fun u => u.nonce.toNat) =
      ((fresh.epochs calls).2.map List.length).map List.range := by
    rw [List.map_map]
    exact List.map_congr_left fun epoch hepoch => (hepochs epoch hepoch).1
  rw [hnonces, hlengths]
  rfl

end NoiseChannel.SymmetricState
