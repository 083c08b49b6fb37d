import NoiseChannel.Proofs.Symmetric
import NoiseChannel.Transport
import Mathlib.Algebra.Group.Nat.Defs
import Mathlib.Data.List.Nodup

/-!
# Counters of a transport

A transport may be called in any order, and its calls may fail. What it has sealed is kept track of
beside it: `Transport.sealings` lists the messages that have gone out, each with the key and the
counter it was sealed under. One call seals at most one message, and only that moves the counter
(`sealing_some`, `send_after_of_none`); hence the messages of a whole sequence of calls are numbered
from zero on (`numbered_sealings`), and no pair of key and nonce occurs twice.
-/

namespace NoiseChannel

/-! ## Nonces tell counters apart -/

theorem Bytes.toNatLE_ofNatLE (n k : Nat) : toNatLE (ofNatLE n k) = k % 256 ^ n := by
  induction n generalizing k with
  | zero =>
    rw [Nat.pow_zero, Nat.mod_one]
    rfl
  | succ n ih =>
    have hdigit : (UInt8.ofNat k).toNat = k % 256 := UInt8.toNat_ofNat'
    rw [ofNatLE, toNatLE, ih, hdigit, Nat.pow_succ', Nat.mod_mul]

theorem Aead.nonce_injective (kind : CipherKind) {a b : UInt64} (h : nonce kind a = nonce kind b) :
    a = b := by
  have hdigits : Bytes.ofNatLE 8 a.toNat = Bytes.ofNatLE 8 b.toNat := by
    cases kind with
    | chaChaPoly => exact List.append_cancel_left h
    | aesGcm => exact List.reverse_inj.mp (List.append_cancel_left h)
  have hnat := congrArg Bytes.toNatLE hdigits
  rw [Bytes.toNatLE_ofNatLE, Bytes.toNatLE_ofNatLE] at hnat
  have ha := a.toNat_lt
  have hb := b.toNat_lt
  exact UInt64.toNat_inj.mp (by omega)

theorem Aead.length_rekeyed (kind : CipherKind) {key : Bytes} (h : key.length = keyLength) :
    (rekeyed kind key).length = keyLength := by
  unfold rekeyed
  rw [List.length_take, length_sealed kind h, Bytes.length_zeros]
  rfl

/-! ## Ciphers with a key -/

namespace CipherState

/-- There is a key, and it has its full length. -/
def Keyed (s : CipherState) : Prop := ∃ key, s.key = some key ∧ key.length = Aead.keyLength

variable {s : CipherState}

theorem Keyed.wellKeyed (h : s.Keyed) : s.WellKeyed := by
  obtain ⟨key, hkey, hlen⟩ := h
  intro k hk
  rw [hkey] at hk
  cases hk
  exact hlen

theorem Keyed.passed_eq (h : s.Keyed) : s.passed = s.advance := by
  obtain ⟨key, hkey, -⟩ := h
  unfold passed
  rw [hkey]

theorem Keyed.passed (h : s.Keyed) : s.passed.Keyed := by
  rw [h.passed_eq]
  exact h

theorem Keyed.rekey (h : s.Keyed) : s.rekey.Keyed := by
  obtain ⟨key, hkey, hlen⟩ := h
  refine ⟨Aead.rekeyed s.kind key, ?_, Aead.length_rekeyed s.kind hlen⟩
  show s.key.map (Aead.rekeyed s.kind) = _
  rw [hkey]
  rfl

theorem Keyed.exhausted_iff (h : s.Keyed) : s.Exhausted ↔ s.nonce = reservedNonce := by
  obtain ⟨key, hkey, -⟩ := h
  unfold Exhausted hasKey
  rw [hkey]
  simp

@[simp] theorem passed_kind (s : CipherState) : s.passed.kind = s.kind := by
  unfold passed
  split <;> rfl

@[simp] theorem passed_key (s : CipherState) : s.passed.key = s.key := by
  unfold passed
  split <;> rfl

theorem toNat_nonce_lt (h : s.nonce ≠ reservedNonce) : s.nonce.toNat < 2 ^ 64 - 1 := by
  have hlt := s.nonce.toNat_lt
  have hne : s.nonce.toNat ≠ reservedNonce.toNat := fun heq => h (UInt64.toNat_inj.mp heq)
  have hlast : reservedNonce.toNat = 2 ^ 64 - 1 := by decide
  omega

theorem toNat_nonce_advance (h : s.nonce ≠ reservedNonce) :
    s.advance.nonce.toNat = s.nonce.toNat + 1 := by
  have hlt := toNat_nonce_lt h
  show (s.nonce + 1).toNat = _
  rw [UInt64.toNat_add]
  exact Nat.mod_eq_of_lt (by change s.nonce.toNat + 1 < 2 ^ 64; omega)

/-- What an encryption that succeeds has written, and what it leaves. -/
theorem written_encrypt {ad plaintext area message : Bytes} (hs : s.WellKeyed)
    (h : (s.encrypt ad plaintext area).written = .ok message) :
    ¬ s.Exhausted ∧ message = s.ciphertext ad plaintext ∧
      (s.encrypt ad plaintext area).state = s.passed := by
  unfold Outcome.written at h
  cases hres : (s.encrypt ad plaintext area).result with
  | error e =>
    rw [hres] at h
    cases h
  | ok n =>
    rw [hres] at h
    have hfits := hres
    rw [result_encrypt] at hfits
    by_cases hn : s.Exhausted
    · rw [if_pos hn] at hfits
      cases hfits
    · rw [if_neg hn] at hfits
      by_cases hshort : area.length < plaintext.length + s.overhead
      · rw [if_pos hshort] at hfits
        cases hfits
      · rw [if_neg hshort] at hfits
        cases hfits
        refine ⟨hn, ?_, state_encrypt_ok hres⟩
        rw [encrypt_ok hs hn (Nat.not_lt.mp hshort)] at h
        cases h
        exact List.take_left' (length_ciphertext hs ad plaintext)

end CipherState

/-! ## Calls on a transport -/

namespace Transport

/-- A call on a transport, with its arguments. -/
inductive Call where
  | write (payload area : Bytes)
  | read (message area : Bytes)
  | rekeySend
  | rekeyReceive
  | setReceiveNonce (nonce : UInt64)

/-- The transport after a call, be it successful or not. -/
def after (t : Transport) : Call → Transport
  | .write payload area => (t.write payload area).state
  | .read message area => (t.read message area).state
  | .rekeySend => t.rekeySend
  | .rekeyReceive => t.rekeyReceive
  | .setReceiveNonce nonce => t.setReceiveNonce nonce

def afterAll (t : Transport) (calls : List Call) : Transport := calls.foldl after t

/-- A message that has been sealed. -/
structure Sealing where
  key : Option Bytes
  counter : UInt64
  payload : Bytes
  /-- What has been written to the area. -/
  message : Bytes
deriving DecidableEq, Repr

/-- What a call seals: the message, if the call is to write one and succeeds. -/
def sealing? (t : Transport) : Call → Option Sealing
  | .write payload area =>
    match (t.write payload area).written with
    | .ok message => some ⟨t.send.key, t.sendNonce, payload, message⟩
    | .error _ => none
  | _ => none

/-- What a sequence of calls seals. -/
def sealings : Transport → List Call → List Sealing
  | _, [] => []
  | t, call :: calls => (t.sealing? call).toList ++ (t.after call).sealings calls

/-! ## One call -/

section Step

variable {t : Transport} {call : Call} {x : Sealing}

/-- A call that seals a message is a call to write it, under the present key and counter; the counter
has not been at its end, and goes on. -/
theorem sealing_some (ht : t.send.Keyed) (hx : t.sealing? call = some x) :
    (∃ area, call = .write x.payload area) ∧ x.key = t.send.key ∧ x.counter = t.sendNonce ∧
      t.sendNonce ≠ CipherState.reservedNonce ∧
      x.message = t.send.ciphertext [] x.payload ∧ (t.after call).send = t.send.passed := by
  cases call with
  | write payload area =>
    simp only [sealing?] at hx
    split at hx
    · rename_i message hwritten
      cases hx
      obtain ⟨hn, hmessage, hstate⟩ := CipherState.written_encrypt ht.wellKeyed hwritten
      exact ⟨⟨area, rfl⟩, rfl, rfl, fun hlast => hn (ht.exhausted_iff.mpr hlast), hmessage, hstate⟩
    · cases hx
  | read message area => cases hx
  | rekeySend => cases hx
  | rekeyReceive => cases hx
  | setReceiveNonce nonce => cases hx

/-- A call that seals nothing leaves the cipher for sending alone, unless it is to change its key. -/
theorem send_after_of_none (hx : t.sealing? call = none) :
    (t.after call).send = t.send ∨ call = .rekeySend ∧ (t.after call).send = t.send.rekey := by
  cases call with
  | write payload area =>
    refine Or.inl ?_
    show (t.send.encrypt [] payload area).state = t.send
    cases hres : (t.send.encrypt [] payload area).result with
    | error e => rw [CipherState.encrypt_error hres]
    | ok n =>
      have hwritten : (t.write payload area).written = .ok ((t.write payload area).area.take n) := by
        show (t.send.encrypt [] payload area).result.map _ = _
        rw [hres]
        rfl
      simp only [sealing?, hwritten] at hx
      cases hx
  | read message area => exact Or.inl rfl
  | rekeySend => exact Or.inr ⟨rfl, rfl⟩
  | rekeyReceive => exact Or.inl rfl
  | setReceiveNonce nonce => exact Or.inl rfl

theorem keyed_send_after (ht : t.send.Keyed) (call : Call) : (t.after call).send.Keyed := by
  cases hx : t.sealing? call with
  | some x =>
    obtain ⟨-, -, -, -, -, hsend⟩ := sealing_some ht hx
    rw [hsend]
    exact ht.passed
  | none =>
    rcases send_after_of_none hx with hsend | ⟨-, hsend⟩
    · rw [hsend]
      exact ht
    · rw [hsend]
      exact ht.rekey

theorem kind_send_after (ht : t.send.Keyed) (call : Call) :
    (t.after call).send.kind = t.send.kind := by
  cases hx : t.sealing? call with
  | some x =>
    obtain ⟨-, -, -, -, -, hsend⟩ := sealing_some ht hx
    rw [hsend, CipherState.passed_kind]
  | none =>
    rcases send_after_of_none hx with hsend | ⟨-, hsend⟩
    · rw [hsend]
    · rw [hsend]
      rfl

theorem key_send_after (ht : t.send.Keyed) (hcall : call ≠ .rekeySend) :
    (t.after call).send.key = t.send.key := by
  cases hx : t.sealing? call with
  | some x =>
    obtain ⟨-, -, -, -, -, hsend⟩ := sealing_some ht hx
    rw [hsend, CipherState.passed_key]
  | none =>
    rcases send_after_of_none hx with hsend | ⟨hrekey, -⟩
    · rw [hsend]
    · exact absurd hrekey hcall

/-- Nothing but a message that goes out moves the counter for sending. -/
theorem sendNonce_after_of_none (hx : t.sealing? call = none) :
    (t.after call).sendNonce = t.sendNonce := by
  unfold sendNonce
  rcases send_after_of_none hx with hsend | ⟨-, hsend⟩
  · rw [hsend]
  · rw [hsend]
    rfl

theorem sendNonce_after_of_some (ht : t.send.Keyed) (hx : t.sealing? call = some x) :
    (t.after call).sendNonce.toNat = t.sendNonce.toNat + 1 := by
  obtain ⟨-, -, -, hn, -, hsend⟩ := sealing_some ht hx
  unfold sendNonce
  rw [hsend, ht.passed_eq]
  exact CipherState.toNat_nonce_advance hn

end Step

/-! ## Sequences of calls -/

/-- A message sealed with a cipher under the number `k`, which is not the reserved one. -/
structure Numbered (kind : CipherKind) (k : Nat) (x : Sealing) : Prop where
  counter_eq : x.counter.toNat = k
  counter_ne : x.counter ≠ CipherState.reservedNonce
  message_eq : ∃ key, x.key = some key ∧ key.length = Aead.keyLength ∧
    x.message = Aead.sealed kind key x.counter [] x.payload

theorem numbered_sealing {t : Transport} {call : Call} {x : Sealing} (ht : t.send.Keyed)
    (hx : t.sealing? call = some x) : Numbered t.send.kind t.sendNonce.toNat x := by
  obtain ⟨-, hkey, hcounter, hn, hmessage, -⟩ := sealing_some ht hx
  obtain ⟨key, hsome, hlen⟩ := ht
  refine ⟨congrArg UInt64.toNat hcounter, hcounter ▸ hn, key, hkey.trans hsome, hlen, ?_⟩
  rw [hmessage, hcounter]
  unfold CipherState.ciphertext
  rw [hsome]
  rfl

/-- The messages of a sequence of calls are numbered one after another, beginning with the present
counter; in the end the counter has moved on by as many as there are. -/
theorem numbered_sealings {t : Transport} (ht : t.send.Keyed) (calls : List Call) :
    (t.afterAll calls).sendNonce.toNat = t.sendNonce.toNat + (t.sealings calls).length ∧
      ∀ k x, (t.sealings calls)[k]? = some x → Numbered t.send.kind (t.sendNonce.toNat + k) x := by
  induction calls generalizing t with
  | nil =>
    refine ⟨rfl, ?_⟩
    intro k x hx
    cases hx
  | cons call calls ih =>
    obtain ⟨hend, hall⟩ := ih (keyed_send_after ht call)
    rw [kind_send_after ht call] at hall
    show ((t.after call).afterAll calls).sendNonce.toNat = _ ∧ _
    -- the rest is numbered from the counter that the first call leaves
    cases hx : t.sealing? call with
    | none =>
      rw [sendNonce_after_of_none hx] at hend hall
      rw [sealings, hx]
      exact ⟨hend, hall⟩
    | some x =>
      rw [sendNonce_after_of_some ht hx] at hend hall
      rw [sealings, hx]
      constructor
      · rw [hend, Option.toList_some, List.singleton_append, List.length_cons]
        omega
      · intro k y hy
        cases k with
        | zero =>
          cases hy
          exact numbered_sealing ht hx
        | succ k =>
          have hnumbered := hall k y hy
          rw [Nat.add_assoc, Nat.add_comm 1 k] at hnumbered
          exact hnumbered

theorem keyed_send_afterAll {t : Transport} (ht : t.send.Keyed) (calls : List Call) :
    (t.afterAll calls).send.Keyed := by
  induction calls generalizing t with
  | nil => exact ht
  | cons call calls ih => exact ih (keyed_send_after ht call)

/-- A transport that comes from a handshake has keys for both directions and counts from zero. -/
theorem ofHandshake_keyed {h : Handshake} {t : Transport} (ht : ofHandshake h = .ok t) :
    t.send.Keyed ∧ t.receive.Keyed ∧ t.send.nonce = 0 ∧ t.receive.nonce = 0 := by
  have hsplit : ∀ s : SymmetricState, s.split.2.1.Keyed ∧ s.split.2.2.Keyed ∧
      s.split.2.1.nonce = 0 ∧ s.split.2.2.nonce = 0 := by
    intro s
    exact ⟨⟨_, rfl, DigestKind.length_hmac _ _ _⟩, ⟨_, rfl, DigestKind.length_hmac _ _ _⟩, rfl, rfl⟩
  unfold ofHandshake Handshake.split at ht
  split at ht
  · rename_i h' send receive hciphers
    split at hciphers
    · rename_i role s _ _ _
      obtain ⟨hfirst, hsecond, hzero, hzero'⟩ := hsplit s
      cases role with
      | initiator =>
        cases hciphers
        cases ht
        exact ⟨hfirst, hsecond, hzero, hzero'⟩
      | responder =>
        cases hciphers
        cases ht
        exact ⟨hsecond, hfirst, hzero', hzero⟩
    · cases hciphers
  · cases ht

/-- Whatever is called on the transport of a handshake, its messages are counted from zero, each is
sealed under its number, and no key is used twice with one nonce. The last counter seals no message,
only the replacement of a key; a transport that has reached it stays as it is and writes no more. -/
theorem nonces_never_repeat {h : Handshake} {t : Transport} (ht : ofHandshake h = .ok t)
    (calls : List Call) :
    let s := t.afterAll calls
    let sealings := t.sealings calls
    let kind := t.send.kind
    (s.sendNonce.toNat = sealings.length ∧
      ∀ (k : Nat) x, sealings[k]? = some x → x.counter.toNat = k ∧
        ∃ key, x.key = some key ∧ x.message = Aead.sealed kind key x.counter [] x.payload) ∧
    ((sealings.map fun x => (x.key, Aead.nonce kind x.counter)).Nodup ∧
      (∀ x ∈ sealings,
        Aead.nonce kind x.counter ≠ Aead.nonce kind CipherState.reservedNonce) ∧
      s.rekeySend.send.key = s.send.key.map fun key =>
        (Aead.sealed s.send.kind key CipherState.reservedNonce []
          (Bytes.zeros Aead.keyLength)).take Aead.keyLength) ∧
    (∀ call, (s.sealing? call = none → (s.after call).sendNonce = s.sendNonce) ∧
      (call ≠ .rekeySend → (s.after call).send.key = s.send.key)) ∧
    (s.sendNonce = CipherState.reservedNonce → ∀ payload area,
      s.write payload area = ⟨s, area, .error .nonceExhausted⟩) := by
  intro s sealings kind
  obtain ⟨hkeyed, -, hzero, -⟩ := ofHandshake_keyed ht
  have hstart : t.sendNonce.toNat = 0 := by
    unfold sendNonce
    rw [hzero]
    rfl
  obtain ⟨hend, hall⟩ := numbered_sealings hkeyed calls
  rw [hstart] at hend hall
  simp only [Nat.zero_add] at hend hall
  have hkeyed' : s.send.Keyed := keyed_send_afterAll hkeyed calls
  refine ⟨⟨hend, ?_⟩, ⟨?_, ?_, rfl⟩, ?_, ?_⟩
  · intro k x hx
    obtain ⟨hcounter, -, key, hkey, -, hmessage⟩ := hall k x hx
    exact ⟨hcounter, key, hkey, hmessage⟩
  · -- two messages with one nonce have one counter, hence one number
    rw [List.nodup_iff_getElem?_ne_getElem?]
    intro i j hij hj heq
    rw [List.length_map] at hj
    have hi : i < sealings.length := by omega
    rw [List.getElem?_map, List.getElem?_map, List.getElem?_eq_getElem hi,
      List.getElem?_eq_getElem hj] at heq
    simp only [Option.map_some, Option.some.injEq, Prod.mk.injEq] at heq
    have hcounter := Aead.nonce_injective kind heq.2
    have hi' := (hall i _ (List.getElem?_eq_getElem hi)).counter_eq
    have hj' := (hall j _ (List.getElem?_eq_getElem hj)).counter_eq
    rw [hcounter] at hi'
    omega
  · intro x hx heq
    obtain ⟨k, hk⟩ := List.mem_iff_getElem?.mp hx
    exact (hall k x hk).counter_ne (Aead.nonce_injective kind heq)
  · intro call
    exact ⟨sendNonce_after_of_none, key_send_after hkeyed'⟩
  · intro hlast payload area
    have hexhausted : s.send.Exhausted := hkeyed'.exhausted_iff.mpr hlast
    have hres : (s.send.encrypt [] payload area).result = .error .nonceExhausted := by
      rw [CipherState.result_encrypt, if_pos hexhausted]
    unfold write
    rw [CipherState.encrypt_error hres]
    rfl

/-- Messages are written, refused for want of room, and written again under a new key. -/
theorem nonces_never_repeat_rekeyed :
    let symmetric := (SymmetricState.start Protocol.nnPsk0ChaChaPolyBlake2s.name .chaChaPoly
      .blake2s).mixKeyAndHash [1]
    let h : Handshake := { Handshake.new .nnPsk0ChaChaPolyBlake2s with
      symmetric := some symmetric, role := some .initiator, phase := .split, messageNumber := 2 }
    let calls : List Call := [.write [1, 2] (Bytes.zeros 18), .write [3] [], .read [] [], .rekeySend,
      .setReceiveNonce 7, .write [] (Bytes.zeros 16)]
    ∃ t, ofHandshake h = .ok t ∧ (t.sealings calls).map Sealing.payload = [[1, 2], []] ∧
      (t.afterAll calls).sendNonce.toNat = 2 ∧
      ((t.sealings calls).map fun x => (x.key, Aead.nonce t.send.kind x.counter)).Nodup := by
  intro symmetric h calls
  let t : Transport := ⟨symmetric.split.2.1, symmetric.split.2.2, symmetric.split.1⟩
  have ht : ofHandshake h = .ok t := rfl
  have hpayloads : (t.sealings calls).map Sealing.payload = [[1, 2], []] := by decide +kernel
  have hlen := congrArg List.length hpayloads
  rw [List.length_map] at hlen
  obtain ⟨⟨hcount, -⟩, ⟨hnodup, -⟩, -⟩ := nonces_never_repeat ht calls
  exact ⟨t, ht, hpayloads, hcount.trans hlen, hnodup⟩

end Transport

end NoiseChannel
