import NoiseChannel.Proofs.Moves

/-!
# The growth of a message

The growth of the next message over its payload is foretold from its tokens and from whether the
cipher has a key. Token by token, what is left of a message exceeds the forecast for the tokens still
to come by as much as before (`left_foldlM`), for whoever writes it and whoever reads it; hence
`Writing.length_run`, `Reading.length_run`, and where in a message each field stands. Whether the
cipher has a key before a message can be told from the pattern alone (`Pattern.keyedBefore`), so that
both parties foretell the same.
-/

namespace NoiseChannel

namespace Handshake

/-! ## The forecast, token by token -/

/-- The bytes that a message is asked for next: those of the field of its next token or, behind the
last one, those of the tag of its payload. -/
def nextField (keyed : Bool) : List Token → Nat
  | [] => tagSize keyed
  | t :: _ => tokenSize keyed t

theorem nextField_le (usesPsk keyed : Bool) (tokens : List Token) :
    nextField keyed tokens ≤ overheadOf usesPsk tokens keyed := by
  cases tokens with
  | nil => exact Nat.le_refl _
  | cons t later => exact Nat.le_add_right _ _

/-- If each token takes what is foretold of it, then so do several of them, and the forecast for the
tokens to come has become less by as much. -/
theorem left_foldlM {σ : Type} (left : σ → Nat) {step : σ → Token → Except (Interrupted σ) σ}
    {keyed : σ → Bool} {usesPsk : Bool}
    (hstep : ∀ m t m', step m t = .ok m' →
      keyed m' = keyedAfter usesPsk (keyed m) t ∧ left m' + tokenSize (keyed m) t = left m)
    {before : List Token} (later : List Token) {m m' : σ} (h : before.foldlM step m = .ok m') :
    left m' + overheadOf usesPsk (before ++ later) (keyed m) =
      left m + overheadOf usesPsk later (keyed m') := by
  induction before generalizing m with
  | nil =>
    cases h
    rfl
  | cons t before ih =>
    rw [List.foldlM_cons] at h
    obtain ⟨m₁, ht, hrest⟩ := bind_ok h
    obtain ⟨hkey, hleft⟩ := hstep m t m₁ ht
    have hlater := ih hrest
    rw [hkey] at hlater
    rw [List.cons_append, overheadOf]
    omega

/-! ## Writing -/

namespace Writing

variable {p : Pattern} {role : Role} {psk : Option PresharedKey} {w w' : Writing}

/-- The size of the area that a message is being written to. -/
def size (w : Writing) : Nat := w.written.length + w.free.length

theorem size_appendEncrypted (w : Writing) (plaintext : Bytes) :
    (reached (w.appendEncrypted plaintext)).size = w.size := by
  have hlen := SymmetricState.length_area_encryptAndHash w.symmetric plaintext w.free
  simp only [appendEncrypted]
  split
  · simp only [reached, size, List.length_append, List.length_take, List.length_drop]
    omega
  · simp only [reached, size]
    omega

theorem size_token (p : Pattern) (role : Role) (psk : Option PresharedKey) (t : Token)
    (w : Writing) : (reached (token p role psk w t)).size = w.size := by
  rcases t.carries with rfl | rfl | ⟨he, hs⟩
  · obtain ⟨pair, left, -, hmade⟩ := generateLocalEphemeral_eq w.slots w.entropy
    have hlen : pair.publicKey.bytes.length = PublicKey.length := pair.publicKey.length_bytes
    rw [token_e, hmade]
    dsimp only
    split
    · rfl
    · simp only [reached, size, List.length_append, List.length_drop, hlen]
      omega
  · rw [token_s]
    split
    · exact size_appendEncrypted _ _
    · rfl
  · rw [token_secret he hs]
    split <;> rfl

/-- Between two tokens of a message, as much has been written as the forecast for the tokens to come
leaves of the forecast for all, and the payload has its room behind them. -/
theorem length_foldlM {before : List Token} (later : List Token) {n : Nat}
    (hempty : w.written = [])
    (hroom : w.free.length = overheadOf p.usesPsk (before ++ later) w.symmetric.hasKey + n)
    (h : before.foldlM (token p role psk) w = .ok w') :
    w'.written.length + overheadOf p.usesPsk later w'.symmetric.hasKey =
        overheadOf p.usesPsk (before ++ later) w.symmetric.hasKey ∧
      w'.free.length = overheadOf p.usesPsk later w'.symmetric.hasKey + n := by
  have hsize : (reached (before.foldlM (token p role psk) w)).size = w.size :=
    reached_foldlM size (fun t _ m => size_token p role psk t m) w
  rw [h] at hsize
  have hleft := left_foldlM (fun w : Writing => w.free.length) (fun m t m' => token_ok) later h
  have hstart : w.size = w.free.length := by
    rw [size, hempty, List.length_nil, Nat.zero_add]
  have hend : w'.written.length + w'.free.length = w.size := hsize
  omega

/-- A message that has been written is as long as foretold. -/
theorem length_run {tokens : List Token} {payload : Bytes} (hempty : w.written = [])
    (hroom : w.free.length = overheadOf p.usesPsk tokens w.symmetric.hasKey + payload.length)
    (h : w.run p role psk tokens payload = .ok w') :
    w'.written.length = overheadOf p.usesPsk tokens w.symmetric.hasKey + payload.length := by
  obtain ⟨m, hfold, hlast⟩ := run_done h
  rw [← List.append_nil tokens] at hroom ⊢
  obtain ⟨hwritten, hfree⟩ := length_foldlM [] hempty hroom hfold
  obtain ⟨-, -, -, -, htaken⟩ := appendEncrypted_ok hlast
  have hsize := size_appendEncrypted m payload
  rw [hlast] at hsize
  have hend : w'.written.length + w'.free.length = m.written.length + m.free.length := hsize
  rw [overheadOf] at hwritten hfree
  omega

end Writing

/-! ## Reading -/

namespace Reading

variable {p : Pattern} {role : Role} {psk : Option PresharedKey} {r r' : Reading}

/-- A token takes its field from the front of what is left of the message. -/
theorem rest_token {t : Token} (h : token p role psk r t = .ok r') : r'.rest <:+ r.rest := by
  rcases t.carries with rfl | rfl | ⟨he, hs⟩
  · rw [token_e] at h
    split at h
    · cases h
      exact List.drop_suffix _ _
    · cases h
  · rw [token_s] at h
    dsimp only at h
    split at h
    · cases h
    split at h
    · cases h
      exact List.drop_suffix _ _
    · cases h
    · cases h
  · rw [token_secret he hs] at h
    split at h
    · cases h
      exact List.suffix_rfl
    · cases h

theorem rest_foldlM {tokens : List Token} (h : tokens.foldlM (token p role psk) r = .ok r') :
    r'.rest <:+ r.rest := by
  induction tokens generalizing r with
  | nil =>
    cases h
    exact List.suffix_rfl
  | cons t tokens ih =>
    rw [List.foldlM_cons] at h
    obtain ⟨r₁, ht, hrest⟩ := bind_ok h
    exact (ih hrest).trans (rest_token ht)

/-- Between two tokens of a message, the part that has not been read begins where the forecast for
the tokens to come leaves off from the forecast for all. -/
theorem offset_foldlM {before : List Token} (later : List Token)
    (h : before.foldlM (token p role psk) r = .ok r') :
    ∃ offset, r'.rest = r.rest.drop offset ∧
      offset + overheadOf p.usesPsk later r'.symmetric.hasKey =
        overheadOf p.usesPsk (before ++ later) r.symmetric.hasKey := by
  have hsuffix := rest_foldlM h
  have hle := hsuffix.length_le
  have hleft := left_foldlM (fun r : Reading => r.rest.length) (fun m t m' => token_ok) later h
  exact ⟨r.rest.length - r'.rest.length, List.suffix_iff_eq_drop.mp hsuffix, by omega⟩

/-- The payload that has been read is what the forecast leaves of the message. -/
theorem length_run {tokens : List Token} {area : Bytes} {n : Nat}
    (h : (r.run p role psk tokens area).result = .ok n) :
    n + overheadOf p.usesPsk tokens r.symmetric.hasKey = r.rest.length := by
  unfold run at h
  cases hfold : tokens.foldlM (token p role psk) r with
  | error stop =>
    rw [hfold] at h
    cases h
  | ok r' =>
    rw [hfold] at h
    have hleft := left_foldlM (fun r : Reading => r.rest.length) (fun m t m' => token_ok) [] hfold
    have hpayload : (r'.payload area).result = .ok n := h
    unfold payload at hpayload
    split at hpayload
    · cases hpayload
    · rename_i htag
      have hres : (r'.symmetric.decryptAndHash r'.rest area).result = .ok n := hpayload
      have hn : r'.rest.length - r'.symmetric.overhead = n := by
        rw [SymmetricState.result_decryptAndHash, if_neg htag] at hres
        split at hres
        · cases hres
        split at hres
        · cases hres
        split at hres
        · exact Except.ok.inj hres
        · cases hres
      rw [overhead_eq_tagSize] at hn htag
      rw [List.append_nil, overheadOf] at hleft
      omega

/-- A token that finds all its bytes does not find the message too short. -/
theorem token_ne_badMessage {t : Token} {stop : Interrupted Reading}
    (hlong : tokenSize r.symmetric.hasKey t ≤ r.rest.length)
    (h : token p role psk r t = .error stop) : stop.error ≠ .badMessage := by
  rcases t.carries with rfl | rfl | ⟨he, hs⟩
  · have hlen : (r.rest.take PublicKey.length).length = 32 := List.length_take_of_le hlong
    rw [token_e, dif_pos hlen] at h
    cases h
  · have hfits : PublicKey.length + r.symmetric.overhead ≤ r.rest.length := hlong
    have htag : r.symmetric.overhead ≤
        (r.rest.take (PublicKey.length + r.symmetric.overhead)).length := by
      rw [List.length_take]
      omega
    rw [token_s] at h
    dsimp only at h
    rw [if_neg (Nat.not_lt.mpr hfits)] at h
    split at h
    · cases h
    · rename_i e _ hkey
      cases h
      unfold PublicKey.ofBytes at hkey
      split at hkey <;> cases hkey
      simp
    · rename_i e hres
      cases h
      rintro rfl
      exact SymmetricState.result_decryptAndHash_ne_badMessage htag hres
  · rw [token_secret he hs] at h
    split at h
    · cases h
    · rename_i e hmix
      cases h
      rcases mixSecret_error hmix with rfl | rfl <;> simp

/-- A message that is as long as foretold at least is not found too short on the way. -/
theorem run_ne_badMessage {tokens : List Token} {area : Bytes}
    (hlong : overheadOf p.usesPsk tokens r.symmetric.hasKey ≤ r.rest.length) :
    (r.run p role psk tokens area).result ≠ .error .badMessage := by
  induction tokens generalizing r with
  | nil =>
    have htag : r.symmetric.overhead ≤ r.rest.length := hlong
    show (r.payload area).result ≠ _
    rw [payload, if_neg (Nat.not_lt.mpr htag)]
    exact SymmetricState.result_decryptAndHash_ne_badMessage htag
  | cons t tokens ih =>
    rw [overheadOf] at hlong
    rw [run, List.foldlM_cons]
    cases ht : token p role psk r t with
    | error stop => exact fun hres => token_ne_badMessage (by omega) ht (Except.error.inj hres)
    | ok r' =>
      obtain ⟨hkey, hrest⟩ := token_ok ht
      refine ih (r := r') ?_
      rw [hkey]
      omega

end Reading

/-! ## The same forecast for both parties -/

/-- While a message is due, its growth can be told from the pattern and its number alone. -/
theorem nextOverhead_afterAll {protocol : Protocol} {calls : List Call} {h : Handshake}
    (hcalls : (new protocol).afterAll calls = h) (hdue : h.phase.awaitsMessage = true) :
    ∃ tokens, protocol.pattern.messages[h.messageNumber]? = some tokens ∧
      h.nextOverhead = overheadOf protocol.pattern.usesPsk tokens
        (protocol.pattern.keyedBefore h.messageNumber) := by
  have hcoherent : Coherent h := hcalls ▸ coherent_afterAll (coherent_new protocol) calls
  have hkeyed : KeyedInTime h := hcalls ▸ keyedInTime_afterAll protocol calls
  have hpattern : h.pattern = protocol.pattern :=
    congrArg Protocol.pattern (hcalls ▸ protocol_afterAll (new protocol) calls)
  have hturn := (awaitsMessage_iff h.phase).mp hdue
  obtain ⟨-, ⟨s, hsym⟩, -⟩ := hcoherent.due hturn
  have htokens := List.getElem?_eq_getElem (hcoherent.number_lt hturn)
  rw [nextOverhead_eq hdue hsym htokens, hkeyed s hsym, ← hpattern]
  exact ⟨_, htokens, rfl⟩

/-! ## The forecast is exact -/

/-- In turn, a message is found too short exactly if it is shorter than without payload. -/
theorem read_badMessage_iff {h : Handshake} (hturn : h.phase = .read) (message area : Bytes) :
    (h.read message area).result = .error .badMessage ↔ message.length < h.nextOverhead := by
  by_cases hshort : message.length < h.nextOverhead
  · have hres : (h.read message area).result = .error .badMessage := by
      simp only [read, refusal_self hturn, if_pos hshort]
    exact ⟨fun _ => hshort, fun _ => hres⟩
  · refine ⟨fun hres => ?_, fun h => absurd h hshort⟩
    have hreads := h.reads message area
    generalize h.read message area = out at hreads hres
    cases hreads with
    | refused href =>
      rw [refusal_self hturn] at href
      cases href
    | short _ hshort' => exact hshort'
    | tooSmall => cases hres
    | unopened _ _ hopen =>
      cases hres
      rcases openMessage_error hopen with he | he <;> cases he
    | @processed role tokens s o _ _ hopen hrun =>
      have hgrowth := nextOverhead_opened (by rw [hturn]; rfl) hopen
      have hlong : overheadOf h.pattern.usesPsk tokens s.hasKey ≤ message.length := by omega
      have hne : o.result ≠ .error .badMessage := by
        rw [hrun]
        exact Reading.run_ne_badMessage hlong
      unfold settleRead at hres
      dsimp only at hres
      split at hres
      · cases hres
      · rename_i e he
        cases hres
        exact absurd he hne

/-- The growth `o` that is foretold of the next message of `h` is what the message grows by. -/
structure Exact (h : Handshake) (o : Nat) : Prop where
  /-- A message that has been written is longer than its payload by so much. -/
  write_ok : ∀ (payload area : Bytes) (entropy : Entropy) (n : Nat),
    (h.write payload area entropy).1.result = .ok n → n = o + payload.length
  /-- The payload that has been read is shorter than its message by so much. -/
  read_ok : ∀ (message area : Bytes) (n : Nat), (h.read message area).result = .ok n →
    o ≤ message.length ∧ n = message.length - o
  /-- A message is found too short exactly if it is shorter than without payload. -/
  read_badMessage_iff : h.phase = .read → ∀ message area : Bytes,
    (h.read message area).result = .error .badMessage ↔ message.length < o
  /-- A reader that has come as far as the tokens `later` stands where the forecast for them says, and
  the message does not end within the field that comes next. -/
  reading : h.phase = .read → ∀ (role : Role) (before later : List Token) (s : SymmetricState)
      (message : Bytes) (r : Reading),
    h.openMessage = .ok (role, before ++ later, s) → o ≤ message.length →
    before.foldlM (Reading.token h.pattern role h.psk)
      { slots := h.slots, symmetric := s, rest := message } = .ok r →
    ∃ offset, r.rest = message.drop offset ∧
      offset + overheadOf h.pattern.usesPsk later r.symmetric.hasKey = o ∧
      offset + nextField r.symmetric.hasKey later ≤ message.length
  /-- So does a writer, who has room for that field and for the payload. -/
  writing : h.phase = .write → ∀ (role : Role) (before later : List Token) (s : SymmetricState)
      (payload area : Bytes) (entropy : Entropy) (w : Writing),
    h.openMessage = .ok (role, before ++ later, s) → o + payload.length ≤ area.length →
    before.foldlM (Writing.token h.pattern role h.psk)
      { slots := h.slots, symmetric := s, written := [], free := area.take (o + payload.length)
        entropy } = .ok w →
    w.written.length + overheadOf h.pattern.usesPsk later w.symmetric.hasKey = o ∧
      nextField w.symmetric.hasKey later + payload.length ≤ w.free.length

theorem exact_nextOverhead (h : Handshake) : Exact h h.nextOverhead where
  write_ok := by
    intro payload area entropy n hres
    have hwrites := h.writes payload area entropy
    generalize h.write payload area entropy = out at hwrites hres
    cases hwrites with
    | refused | tooSmall | unopened | stopped => cases hres
    | @through role tokens s w hturn hroom hopen hrun =>
      have hgrowth := nextOverhead_opened (by rw [hturn]; rfl) hopen
      cases hres
      rw [hgrowth] at hroom hrun ⊢
      exact Writing.length_run rfl (List.length_take_of_le hroom) hrun
  read_ok := by
    intro message area n hres
    obtain ⟨hturn, role, tokens, s, hopen, hrun, -⟩ := read_ok hres
    have hgrowth := nextOverhead_opened (by rw [hturn]; rfl) hopen
    have hlen := Reading.length_run hrun
    rw [hgrowth]
    dsimp only at hlen
    omega
  read_badMessage_iff := read_badMessage_iff
  reading := by
    intro hturn role before later s message r hopen hlong hfold
    have hgrowth := nextOverhead_opened (by rw [hturn]; rfl) hopen
    obtain ⟨offset, hrest, hoffset⟩ := Reading.offset_foldlM later hfold
    rw [← hgrowth] at hoffset
    have hnext := nextField_le h.pattern.usesPsk r.symmetric.hasKey later
    exact ⟨offset, hrest, hoffset, by omega⟩
  writing := by
    intro hturn role before later s payload area entropy w hopen hroom hfold
    have hgrowth := nextOverhead_opened (by rw [hturn]; rfl) hopen
    rw [hgrowth] at hroom hfold ⊢
    obtain ⟨hwritten, hfree⟩ :=
      Writing.length_foldlM later rfl (List.length_take_of_le hroom) hfold
    have hnext := nextField_le h.pattern.usesPsk w.symmetric.hasKey later
    exact ⟨hwritten, by omega⟩

/-- Whatever calls a handshake has been through, the growth foretold of its next message is exact; and
any other handshake of the protocol, be it of this party or of its peer, that awaits the message of
the same number foretells the same. -/
theorem growth_foretold (protocol : Protocol) (calls : List Call) :
    let h := (new protocol).afterAll calls
    Exact h h.nextOverhead ∧
    ∀ others, let other := (new protocol).afterAll others
      h.phase.awaitsMessage = true → other.phase.awaitsMessage = true →
      other.messageNumber = h.messageNumber → other.nextOverhead = h.nextOverhead := by
  intro h
  refine ⟨exact_nextOverhead h, ?_⟩
  intro others other hdue hdue' hnumber
  obtain ⟨tokens, htokens, hgrowth⟩ := nextOverhead_afterAll rfl hdue
  obtain ⟨tokens', htokens', hgrowth'⟩ := nextOverhead_afterAll rfl hdue'
  rw [hnumber, htokens] at htokens'
  cases htokens'
  rw [hgrowth, hgrowth', hnumber]

/-- Both parties foretell that their first message under a pre-shared key grows by 48 bytes. It does
when the initiator writes it, and 47 bytes are no message to the responder. -/
theorem growth_foretold_nnPsk0 :
    let given := Call.setPresharedKey (Bytes.zeros 32)
    let h := (new .nnPsk0ChaChaPolySha256).afterAll [given, .start .initiator [1]]
    let other := (new .nnPsk0ChaChaPolySha256).afterAll [given, .start .responder [1]]
    h.nextOverhead = 48 ∧ other.nextOverhead = 48 ∧
      (h.write [7] (Bytes.zeros 60) .silent).1.result = .ok 49 ∧
      (other.read (Bytes.zeros 47) []).result = .error .badMessage := by
  intro given h other
  obtain ⟨hexact, hsame⟩ := growth_foretold .nnPsk0ChaChaPolySha256 [given, .start .initiator [1]]
  obtain ⟨hexact', -⟩ := growth_foretold .nnPsk0ChaChaPolySha256 [given, .start .responder [1]]
  have hgrowth : h.nextOverhead = 48 := by decide +kernel
  have hother : other.nextOverhead = h.nextOverhead :=
    hsame [given, .start .responder [1]] (by decide +kernel) (by decide +kernel) (by decide +kernel)
  have hwritten : (h.write [7] (Bytes.zeros 60) .silent).1.result.toOption.isSome = true := by
    decide +kernel
  refine ⟨hgrowth, hother.trans hgrowth, ?_, ?_⟩
  · cases hres : (h.write [7] (Bytes.zeros 60) .silent).1.result with
    | ok n => rw [hexact.write_ok _ _ _ n hres, hgrowth]; rfl
    | error e =>
      rw [hres] at hwritten
      cases hwritten
  · refine (hexact'.read_badMessage_iff (by decide +kernel) _ _).mpr ?_
    rw [Bytes.length_zeros]
    exact Nat.lt_of_lt_of_eq (by decide) (hother.trans hgrowth).symm

end Handshake

end NoiseChannel
