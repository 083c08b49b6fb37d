import NoiseChannel.Proofs.Token

/-!
# How message calls end

The growth of the next message is foretold without processing it. `Writing.run_error` and
`Reading.run_error` carry the forecast through the tokens of a message: processing never runs out of
room that the forecast has granted. Hence the four ways in which a call ends, `Ends`: it is refused
before it starts for want of room, it is refused where no message is due, it makes the handshake
fail, or it takes the handshake on by one message.
-/

namespace NoiseChannel.Handshake

/-! ## Before the first message -/

theorem premessageKey_error {slots : KeySlots} {own : Bool} {t : Token} {e : Error}
    (h : premessageKey slots own t = .error e) : e = .missingKey ∨ e = .wrongState := by
  unfold premessageKey at h
  dsimp only at h
  split at h
  · cases h
  · cases h
    exact Or.inl rfl
  · rename_i hfound
    cases t <;> cases hfound <;> cases h <;> exact Or.inr rfl

/-- Two patterns have one key each that is mixed before the first message; neither is mixed into the
chaining key. -/
theorem mixPremessages_eq (p : Pattern) (role : Role) (slots : KeySlots) (s : SymmetricState) :
    mixPremessages p role slots s =
      match p with
      | .xx | .nnPsk0 => .ok s
      | .ik => (premessageKey slots (Role.responder == role) .s).map fun key => s.mixHash key.bytes
      | .xxFallback =>
        (premessageKey slots (Role.initiator == role) .e).map fun key => s.mixHash key.bytes := by
  cases p with
  | xx => rfl
  | nnPsk0 => rfl
  | ik =>
    have hknown : (Role.all.flatMap fun owner =>
        (Pattern.ik.premessage owner).map fun t => (owner, t)) = [(.responder, .s)] := rfl
    simp only [mixPremessages, hknown, List.foldlM_cons, List.foldlM_nil]
    cases premessageKey slots (Role.responder == role) .s <;> rfl
  | xxFallback =>
    have hknown : (Role.all.flatMap fun owner =>
        (Pattern.xxFallback.premessage owner).map fun t => (owner, t)) = [(.initiator, .e)] := rfl
    simp only [mixPremessages, hknown, List.foldlM_cons, List.foldlM_nil]
    cases premessageKey slots (Role.initiator == role) .e <;> rfl

theorem mixPremessages_error {p : Pattern} {role : Role} {slots : KeySlots} {s : SymmetricState}
    {e : Error} (h : mixPremessages p role slots s = .error e) :
    e = .missingKey ∨ e = .wrongState := by
  rw [mixPremessages_eq] at h
  cases p with
  | xx | nnPsk0 => cases h
  | ik | xxFallback => exact premessageKey_error (map_error h)

/-- The keys known beforehand give the cipher no key of its own. -/
theorem mixPremessages_ok {p : Pattern} {role : Role} {slots : KeySlots} {s s' : SymmetricState}
    (h : mixPremessages p role slots s = .ok s') : s'.cipher = s.cipher := by
  rw [mixPremessages_eq] at h
  cases p with
  | xx | nnPsk0 =>
    cases h
    rfl
  | ik | xxFallback =>
    obtain ⟨key, -, rfl⟩ := map_ok h
    exact SymmetricState.mixHash_cipher _ _

theorem sized_mixPremessages {p : Pattern} {role : Role} {slots : KeySlots} {s s' : SymmetricState}
    (hs : s.Sized) (h : mixPremessages p role slots s = .ok s') : s'.Sized := by
  rw [mixPremessages_eq] at h
  cases p with
  | xx | nnPsk0 =>
    cases h
    exact hs
  | ik | xxFallback =>
    obtain ⟨key, -, rfl⟩ := map_ok h
    exact hs.mixHash _

/-- The symmetric state that the tokens of the next message start from. -/
def openingState (h : Handshake) (role : Role) (before : SymmetricState) :
    Except Error SymmetricState :=
  if h.messageNumber = 0 then mixPremessages h.pattern role h.slots before else .ok before

theorem openMessage_eq (h : Handshake) :
    h.openMessage =
      match h.role, h.symmetric with
      | some role, some before =>
        match h.openingState role before, h.nextTokens with
        | .ok s, some tokens => .ok (role, tokens, s)
        | .ok _, none => .error .wrongState
        | .error e, _ => .error e
      | _, _ => .error .wrongState := by
  unfold openMessage
  cases hrole : h.role with
  | none => rfl
  | some role =>
    cases hsym : h.symmetric with
    | none => rfl
    | some before =>
      dsimp only
      rw [openingState]
      by_cases hn : h.messageNumber = 0
      · rw [if_pos hn, if_pos hn]
        cases mixPremessages h.pattern role h.slots before with
        | error e => rfl
        | ok s => cases h.nextTokens <;> rfl
      · rw [if_neg hn, if_neg hn]
        cases h.nextTokens <;> rfl

/-- A message that can be opened has a role, tokens and a symmetric state. -/
theorem openMessage_ok {h : Handshake} {role : Role} {tokens : List Token} {s : SymmetricState}
    (hopen : h.openMessage = .ok (role, tokens, s)) :
    h.role = some role ∧ h.nextTokens = some tokens ∧
      ∃ before, h.symmetric = some before ∧ h.openingState role before = .ok s := by
  rw [openMessage_eq] at hopen
  split at hopen
  · rename_i role' before hrole hsym
    split at hopen
    · rename_i s' tokens' hstate htok
      cases hopen
      exact ⟨hrole, htok, before, hsym, hstate⟩
    · cases hopen
    · cases hopen
  · cases hopen

theorem openMessage_error {h : Handshake} {e : Error} (hopen : h.openMessage = .error e) :
    e = .missingKey ∨ e = .wrongState := by
  rw [openMessage_eq] at hopen
  split at hopen
  · split at hopen
    · cases hopen
    · cases hopen
      exact Or.inr rfl
    · rename_i e' hstate
      cases hopen
      unfold openingState at hstate
      split at hstate
      · exact mixPremessages_error hstate
      · cases hstate
  · cases hopen
    exact Or.inr rfl

/-- The forecast of a message's growth is for the state that its tokens start from. -/
theorem openingState_cipher {h : Handshake} {role : Role} {before s : SymmetricState}
    (hstate : h.openingState role before = .ok s) : s.cipher = before.cipher := by
  unfold openingState at hstate
  split at hstate
  · exact mixPremessages_ok hstate
  · cases hstate
    rfl

theorem sized_openingState {h : Handshake} {role : Role} {before s : SymmetricState}
    (hbefore : before.Sized) (hstate : h.openingState role before = .ok s) : s.Sized := by
  unfold openingState at hstate
  split at hstate
  · exact sized_mixPremessages hbefore hstate
  · cases hstate
    exact hbefore

/-- While a message is due, the forecast of its growth is the sum over its tokens. -/
theorem nextOverhead_eq {h : Handshake} {tokens : List Token} {s : SymmetricState}
    (hdue : h.phase.awaitsMessage = true) (hsym : h.symmetric = some s)
    (htok : h.nextTokens = some tokens) :
    h.nextOverhead = overheadOf h.pattern.usesPsk tokens s.hasKey := by
  simp only [nextOverhead, hsym, htok, hdue, if_true]

/-- It is the sum over the tokens that the message is opened with. -/
theorem nextOverhead_opened {h : Handshake} {role : Role} {tokens : List Token} {s : SymmetricState}
    (hdue : h.phase.awaitsMessage = true) (hopen : h.openMessage = .ok (role, tokens, s)) :
    h.nextOverhead = overheadOf h.pattern.usesPsk tokens s.hasKey := by
  obtain ⟨-, htok, before, hsym, hstate⟩ := openMessage_ok hopen
  have hkey : s.hasKey = before.hasKey := congrArg CipherState.hasKey (openingState_cipher hstate)
  rw [nextOverhead_eq hdue hsym htok, hkey]

/-! ## The forecast holds -/

/-- With the room foretold, writing a message never runs out of it. -/
theorem Writing.run_error {p : Pattern} {role : Role} {psk : Option PresharedKey}
    {tokens : List Token} {payload : Bytes} {w : Writing} {stop : Interrupted Writing}
    (hroom : overheadOf p.usesPsk tokens w.symmetric.hasKey + payload.length ≤ w.free.length)
    (h : w.run p role psk tokens payload = .error stop) : stop.error ≠ .bufferTooSmall := by
  induction tokens generalizing w with
  | nil =>
    have hneed : payload.length + tagSize w.symmetric.hasKey ≤ w.free.length := by
      rw [overheadOf] at hroom
      omega
    rw [(appendEncrypted_error hneed h).1]
    decide
  | cons t ts ih =>
    rw [overheadOf] at hroom
    rw [run, List.foldlM_cons] at h
    cases ht : token p role psk w t with
    | error stop' =>
      rw [ht] at h
      cases h
      exact token_error (by omega) ht
    | ok w' =>
      obtain ⟨hkey, hfree⟩ := token_ok ht
      rw [ht] at h
      refine ih (w := w') ?_ h
      rw [hkey]
      omega

/-- A message that has been written has ended the prologue phase. -/
theorem Writing.run_ok {p : Pattern} {role : Role} {psk : Option PresharedKey}
    {tokens : List Token} {payload : Bytes} {w w' : Writing}
    (h : w.run p role psk tokens payload = .ok w') : w'.symmetric.inPrologue = false := by
  obtain ⟨m, -, hlast⟩ := run_done h
  exact (appendEncrypted_ok hlast).2.1

/-- With room for what the forecast leaves to the payload, reading never runs out of it. -/
theorem Reading.run_error {p : Pattern} {role : Role} {psk : Option PresharedKey}
    {tokens : List Token} {area : Bytes} {r : Reading}
    (hroom : r.rest.length - overheadOf p.usesPsk tokens r.symmetric.hasKey ≤ area.length) :
    (r.run p role psk tokens area).result ≠ .error .bufferTooSmall := by
  induction tokens generalizing r with
  | nil =>
    have hfits : r.rest.length - r.symmetric.overhead ≤ area.length := hroom
    show (r.payload area).result ≠ _
    unfold payload
    split
    · intro hres
      cases hres
    · exact SymmetricState.result_decryptAndHash_ne hfits
  | cons t ts ih =>
    rw [run, List.foldlM_cons]
    cases ht : token p role psk r t with
    | error stop =>
      exact fun hres => token_error ht (Except.error.inj hres)
    | ok r' =>
      obtain ⟨hkey, hrest⟩ := token_ok ht
      refine ih (r := r') ?_
      rw [overheadOf] at hroom
      rw [hkey]
      omega

/-- A message that has been read has ended the prologue phase. -/
theorem Reading.run_ok {p : Pattern} {role : Role} {psk : Option PresharedKey}
    {tokens : List Token} {area : Bytes} {r : Reading} {n : Nat}
    (h : (r.run p role psk tokens area).result = .ok n) :
    (r.run p role psk tokens area).state.symmetric.inPrologue = false := by
  unfold run at h ⊢
  cases hfold : tokens.foldlM (token p role psk) r with
  | error stop =>
    rw [hfold] at h
    cases h
  | ok r' =>
    rw [hfold] at h
    change (r'.payload area).result = .ok n at h
    show (r'.payload area).state.symmetric.inPrologue = false
    unfold payload at h ⊢
    split at h
    · cases h
    · rw [if_neg ‹_›]
      exact SymmetricState.inPrologue_decryptAndHash _ _ _

/-! ## What a message call does -/

/-- A call is refused outright unless its turn has come. -/
theorem refusal_eq_none {h : Handshake} {turn : Phase} (href : h.refusal? turn = none) :
    h.phase = turn := by
  unfold refusal? at href
  split at href
  · assumption
  · split at href <;> cases href

theorem refusal_error {h h' : Handshake} {turn : Phase} {e : Error}
    (href : h.refusal? turn = some (h', e)) : e = .wrongState ∨ e = .handshakeFailed := by
  unfold refusal? at href
  split at href
  · cases href
  · split at href <;> cases href <;> decide

/-- A call out of turn leaves a handshake as it is or makes it fail. -/
theorem refusal_cases {h h' : Handshake} {turn : Phase} {e : Error}
    (href : h.refusal? turn = some (h', e)) : h' = h ∨ h' = h.fail e := by
  unfold refusal? at href
  split at href
  · cases href
  · split at href <;> cases href
    · exact Or.inl rfl
    · exact Or.inr rfl
    · exact Or.inr rfl
    · exact Or.inl rfl

/-- How far writing gets on a handshake `h`, and what it gives. -/
inductive Writes (h : Handshake) (payload area : Bytes) (entropy : Entropy) :
    Outcome Handshake × Entropy → Prop where
  /-- The call is out of turn. -/
  | refused {h' : Handshake} {e : Error} : h.refusal? .write = some (h', e) →
      Writes h payload area entropy (⟨h', area, .error e⟩, entropy)
  /-- The message does not fit. -/
  | tooSmall : h.phase = .write → area.length < h.nextOverhead + payload.length →
      Writes h payload area entropy (⟨h, area, .error .bufferTooSmall⟩, entropy)
  /-- The message cannot be begun. -/
  | unopened {e : Error} : h.phase = .write → h.nextOverhead + payload.length ≤ area.length →
      h.openMessage = .error e →
      Writes h payload area entropy (⟨h.fail e, area, .error e⟩, entropy)
  /-- A token or the payload cannot be written. -/
  | stopped {role : Role} {tokens : List Token} {s : SymmetricState} {stop : Interrupted Writing} :
      h.phase = .write → h.nextOverhead + payload.length ≤ area.length →
      h.openMessage = .ok (role, tokens, s) →
      Writing.run h.pattern role h.psk tokens payload
        { slots := h.slots, symmetric := s, written := []
          free := area.take (h.nextOverhead + payload.length), entropy } = .error stop →
      Writes h payload area entropy
        (⟨{ h with slots := stop.reached.slots }.fail stop.error,
          stop.reached.written ++ stop.reached.free ++
            area.drop (h.nextOverhead + payload.length), .error stop.error⟩,
          stop.reached.entropy)
  /-- The message is written. -/
  | through {role : Role} {tokens : List Token} {s : SymmetricState} {w : Writing} :
      h.phase = .write → h.nextOverhead + payload.length ≤ area.length →
      h.openMessage = .ok (role, tokens, s) →
      Writing.run h.pattern role h.psk tokens payload
        { slots := h.slots, symmetric := s, written := []
          free := area.take (h.nextOverhead + payload.length), entropy } = .ok w →
      Writes h payload area entropy
        (⟨{ h with slots := w.slots, symmetric := some w.symmetric }.advance,
          w.written ++ w.free ++ area.drop (h.nextOverhead + payload.length),
          .ok w.written.length⟩, w.entropy)

theorem writes (h : Handshake) (payload area : Bytes) (entropy : Entropy) :
    Writes h payload area entropy (h.write payload area entropy) := by
  unfold write
  split
  · rename_i h' e href
    exact .refused href
  · rename_i href
    have hturn := refusal_eq_none href
    dsimp only
    split
    · exact .tooSmall hturn ‹_›
    · have hroom : h.nextOverhead + payload.length ≤ area.length := Nat.not_lt.mp ‹_›
      split
      · exact .unopened hturn hroom ‹_›
      · rename_i hopen
        split
        · exact .through hturn hroom hopen ‹_›
        · exact .stopped hturn hroom hopen ‹_›

/-- How far reading gets on a handshake `h`, and what it gives. -/
inductive Reads (h : Handshake) (message area : Bytes) : Outcome Handshake → Prop where
  /-- The call is out of turn. -/
  | refused {h' : Handshake} {e : Error} : h.refusal? .read = some (h', e) →
      Reads h message area ⟨h', area, .error e⟩
  /-- The message is shorter than without payload. -/
  | short : h.phase = .read → message.length < h.nextOverhead →
      Reads h message area ⟨h.fail .badMessage, area, .error .badMessage⟩
  /-- The payload does not fit. -/
  | tooSmall : h.phase = .read → h.nextOverhead ≤ message.length →
      area.length < message.length - h.nextOverhead →
      Reads h message area ⟨h, area, .error .bufferTooSmall⟩
  /-- The message cannot be begun. -/
  | unopened {e : Error} : h.phase = .read → message.length - h.nextOverhead ≤ area.length →
      h.openMessage = .error e → Reads h message area ⟨h.fail e, area, .error e⟩
  /-- The message is processed, and `o` tells how far. -/
  | processed {role : Role} {tokens : List Token} {s : SymmetricState} {o : Outcome Reading} :
      h.phase = .read → message.length - h.nextOverhead ≤ area.length →
      h.openMessage = .ok (role, tokens, s) →
      o = Reading.run h.pattern role h.psk tokens area
        { slots := h.slots, symmetric := s, rest := message } →
      Reads h message area (h.settleRead o)

theorem reads (h : Handshake) (message area : Bytes) :
    Reads h message area (h.read message area) := by
  unfold read
  split
  · rename_i h' e href
    exact .refused href
  · rename_i href
    have hturn := refusal_eq_none href
    split
    · exact .short hturn ‹_›
    · have hlong : h.nextOverhead ≤ message.length := Nat.not_lt.mp ‹_›
      split
      · exact .tooSmall hturn hlong ‹_›
      · have hroom : message.length - h.nextOverhead ≤ area.length := Nat.not_lt.mp ‹_›
        split
        · exact .unopened hturn hroom ‹_›
        · exact .processed hturn hroom ‹_› rfl

/-! ## The four ends of a message call -/

/-- How a message call ends on a handshake `h`, for a call that is due in the phase `turn` and that
has too little room if `short`. -/
inductive Ends (h : Handshake) (turn : Phase) (short : Prop) :
    Handshake → Except Error Nat → Prop where
  /-- There is too little room: nothing happens. -/
  | tooSmall : h.phase = turn → short → Ends h turn short h (.error .bufferTooSmall)
  /-- No message is due: nothing happens. -/
  | idle {e : Error} : h.phase.awaitsMessage = false → e ≠ .bufferTooSmall →
      Ends h turn short h (.error e)
  /-- The handshake fails; it may have come by keys before. -/
  | failed {slots : KeySlots} {e : Error} : h.phase.awaitsMessage = true →
      ¬ (h.phase = turn ∧ short) → e ≠ .bufferTooSmall →
      Ends h turn short ({ h with slots }.fail e) (.error e)
  /-- The message goes through. -/
  | done {slots : KeySlots} {s : SymmetricState} {n : Nat} : h.phase = turn → ¬ short →
      s.inPrologue = false →
      Ends h turn short { h with slots, symmetric := some s }.advance (.ok n)

/-- Failing leaves the key slots alone where no token has been processed. -/
theorem ends_failing {h : Handshake} {turn : Phase} {short : Prop} {e : Error}
    (hdue : h.phase.awaitsMessage = true) (hroom : ¬ (h.phase = turn ∧ short))
    (he : e ≠ .bufferTooSmall) : Ends h turn short (h.fail e) (.error e) :=
  Ends.failed hdue hroom he

/-- A call out of turn is refused; it makes the handshake fail if a message is due. -/
theorem ends_of_refusal {h h' : Handshake} {turn : Phase} {e : Error} (short : Prop)
    (href : h.refusal? turn = some (h', e)) : Ends h turn short h' (.error e) := by
  unfold refusal? at href
  split at href
  · cases href
  · rename_i hne
    have hnot : ¬ (h.phase = turn ∧ short) := fun hand => hne hand.1
    split at href
    · rename_i hp
      cases href
      exact .idle (by rw [hp]; rfl) (by decide)
    · rename_i hp
      cases href
      exact ends_failing (by rw [hp]; rfl) hnot (by decide)
    · rename_i hp
      cases href
      exact ends_failing (by rw [hp]; rfl) hnot (by decide)
    · rename_i hw hr _
      cases href
      refine .idle ?_ (by decide)
      cases hp : h.phase <;> simp_all [Phase.awaitsMessage]

/-- How writing ends. -/
theorem write_ends (h : Handshake) (payload area : Bytes) (entropy : Entropy) :
    Ends h .write (area.length < h.nextOverhead + payload.length)
      (h.write payload area entropy).1.state (h.write payload area entropy).1.result := by
  have hwrites := h.writes payload area entropy
  generalize h.write payload area entropy = out at hwrites ⊢
  cases hwrites with
  | refused href => exact ends_of_refusal _ href
  | tooSmall hturn hshort => exact .tooSmall hturn hshort
  | unopened hturn hroom hopen =>
    refine ends_failing (by rw [hturn]; rfl) (fun hand => by omega) ?_
    rcases openMessage_error hopen with rfl | rfl <;> decide
  | @stopped role tokens s stop hturn hroom hopen hrun =>
    have hdue : h.phase.awaitsMessage = true := by rw [hturn]; rfl
    have hfits : overheadOf h.pattern.usesPsk tokens s.hasKey + payload.length ≤
        (area.take (h.nextOverhead + payload.length)).length := by
      rw [List.length_take, ← nextOverhead_opened hdue hopen]
      omega
    exact .failed hdue (fun hand => by omega) (Writing.run_error hfits hrun)
  | through hturn hroom _ hrun => exact .done hturn (Nat.not_lt.mpr hroom) (Writing.run_ok hrun)

/-- How reading ends. -/
theorem read_ends (h : Handshake) (message area : Bytes) :
    Ends h .read (h.nextOverhead ≤ message.length ∧ area.length < message.length - h.nextOverhead)
      (h.read message area).state (h.read message area).result := by
  have hreads := h.reads message area
  generalize h.read message area = out at hreads ⊢
  cases hreads with
  | refused href => exact ends_of_refusal _ href
  | short hturn hshort =>
    exact ends_failing (by rw [hturn]; rfl) (fun hand => by omega) (by decide)
  | tooSmall hturn hlong hshort => exact .tooSmall hturn ⟨hlong, hshort⟩
  | unopened hturn hroom hopen =>
    refine ends_failing (by rw [hturn]; rfl) (fun hand => by omega) ?_
    rcases openMessage_error hopen with rfl | rfl <;> decide
  | @processed role tokens s o hturn hroom hopen hrun =>
    have hdue : h.phase.awaitsMessage = true := by rw [hturn]; rfl
    have hfits : message.length - overheadOf h.pattern.usesPsk tokens s.hasKey ≤ area.length := by
      rw [← nextOverhead_opened hdue hopen]
      exact hroom
    have hne : o.result ≠ .error .bufferTooSmall := by
      rw [hrun]
      exact Reading.run_error hfits
    dsimp only [settleRead]
    split
    · rename_i n hres
      rw [hrun] at hres ⊢
      exact .done hturn (fun hand => by omega) (Reading.run_ok hres)
    · rename_i e hres
      exact .failed hdue (fun hand => by omega) (fun he => hne (by rw [hres, he]))

/-! ## The discipline of errors -/

section Discipline

variable {h h' : Handshake} {turn : Phase} {short : Prop} {res : Except Error Nat} {e : Error}

/-- Want of room is reported when a call is due and has too little of it, and only then. -/
theorem Ends.tooSmall_iff (hends : Ends h turn short h' res) (hturn : turn.awaitsMessage = true) :
    res = .error .bufferTooSmall ↔ h.phase = turn ∧ short := by
  cases hends with
  | tooSmall hp hshort => exact ⟨fun _ => ⟨hp, hshort⟩, fun _ => rfl⟩
  | idle hidle he =>
    refine ⟨fun hres => absurd (Except.error.inj hres) he, ?_⟩
    rintro ⟨rfl, -⟩
    rw [hidle] at hturn
    cases hturn
  | failed _ hnot he =>
    exact ⟨fun hres => absurd (Except.error.inj hres) he, fun hand => absurd hand hnot⟩
  | done hp hnot _ =>
    refine ⟨fun hres => ?_, fun hand => absurd hand.2 hnot⟩
    cases hres

/-- Any other error while a message is due makes the handshake fail for that very reason. -/
theorem Ends.fails (hends : Ends h turn short h' (.error e)) (hdue : h.phase.awaitsMessage = true)
    (he : e ≠ .bufferTooSmall) :
    h'.phase = .failed ∧ h'.failure = some e ∧ h'.symmetric = none := by
  cases hends with
  | tooSmall _ _ => exact absurd rfl he
  | idle hidle _ =>
    rw [hidle] at hdue
    cases hdue
  | failed _ _ _ => exact ⟨rfl, rfl, rfl⟩

/-- A call out of turn on a handshake that awaits no message leaves it alone. -/
theorem refusal_idle (hidle : h.phase.awaitsMessage = false) (hturn : turn.awaitsMessage = true) :
    ∃ e, h.refusal? turn = some (h, e) := by
  have hne : h.phase ≠ turn := by
    rintro rfl
    rw [hidle] at hturn
    cases hturn
  rw [refusal?, if_neg hne]
  cases hp : h.phase with
  | write | read =>
    rw [hp] at hidle
    cases hidle
  | initial | split | finished => exact ⟨.wrongState, rfl⟩
  | failed => exact ⟨.handshakeFailed, rfl⟩

theorem refusal_self (hp : h.phase = turn) : h.refusal? turn = none := by
  rw [refusal?, if_pos hp]

/-- Writing that reports want of room, or that fails where no message is due, changes neither the
handshake nor the area, and draws no randomness. -/
theorem write_inert {payload area : Bytes} {entropy : Entropy}
    (hres : (h.write payload area entropy).1.result = .error e)
    (hinert : e = .bufferTooSmall ∨ h.phase.awaitsMessage = false) :
    h.write payload area entropy = (⟨h, area, .error e⟩, entropy) := by
  rcases hinert with rfl | hidle
  · obtain ⟨hp, hshort⟩ := ((h.write_ends payload area entropy).tooSmall_iff rfl).mp hres
    simp only [write, refusal_self hp, if_pos hshort]
  · obtain ⟨e', href⟩ : ∃ e', h.refusal? .write = some (h, e') := refusal_idle hidle rfl
    simp only [write, href] at hres ⊢
    cases hres
    rfl

/-- So does reading. -/
theorem read_inert {message area : Bytes} (hres : (h.read message area).result = .error e)
    (hinert : e = .bufferTooSmall ∨ h.phase.awaitsMessage = false) :
    h.read message area = ⟨h, area, .error e⟩ := by
  rcases hinert with rfl | hidle
  · obtain ⟨hp, hlong, hshort⟩ := ((h.read_ends message area).tooSmall_iff rfl).mp hres
    simp only [read, refusal_self hp, if_neg (Nat.not_lt.mpr hlong), if_pos hshort]
  · obtain ⟨e', href⟩ : ∃ e', h.refusal? .read = some (h, e') := refusal_idle hidle rfl
    simp only [read, href] at hres ⊢
    cases hres
    rfl

end Discipline

/-- How the errors of a message call on the handshake `h` are to be taken, if the call ends as `o`.
`short` says that the call is due and has too little room, `same` that it has left everything as it
was. -/
structure Disciplined (h : Handshake) (short same : Prop) (o : Outcome Handshake) : Prop where
  /-- Want of room is reported when there is too little, and only then. -/
  tooSmall_iff : o.result = .error .bufferTooSmall ↔ short
  /-- It costs nothing. -/
  tooSmall_same : o.result = .error .bufferTooSmall → same
  /-- Every other error while a message is due makes the handshake fail for that very reason. -/
  fails : h.phase.awaitsMessage = true → ∀ e, e ≠ .bufferTooSmall → o.result = .error e →
    o.state.phase = .failed ∧ o.state.failure = some e ∧ o.state.symmetric = none
  /-- Where no message is due, every error leaves all as it was. -/
  idle_same : h.phase.awaitsMessage = false → ∀ e, o.result = .error e → same

/-- The errors of message calls, on any handshake whatever. Too little room is found out before
anything happens, so that the call can be made again with more, as if it had not been made before;
no other error is forgiven while a message is due. -/
theorem message_errors (h : Handshake) :
    (∀ payload area entropy,
      Disciplined h (h.phase = .write ∧ area.length < h.nextOverhead + payload.length)
        (∃ e, h.write payload area entropy = (⟨h, area, .error e⟩, entropy) ∧
          ∀ other, (h.write payload area entropy).1.state.write payload other
            (h.write payload area entropy).2 = h.write payload other entropy)
        (h.write payload area entropy).1) ∧
    (∀ message area,
      Disciplined h (h.phase = .read ∧ h.nextOverhead ≤ message.length ∧
          area.length < message.length - h.nextOverhead)
        (∃ e, h.read message area = ⟨h, area, .error e⟩ ∧
          ∀ other, (h.read message area).state.read message other = h.read message other)
        (h.read message area)) := by
  constructor
  · intro payload area entropy
    have hends := h.write_ends payload area entropy
    have hsame : ∀ e, (h.write payload area entropy).1.result = .error e →
        e = .bufferTooSmall ∨ h.phase.awaitsMessage = false →
        ∃ e, h.write payload area entropy = (⟨h, area, .error e⟩, entropy) ∧
          ∀ other, (h.write payload area entropy).1.state.write payload other
            (h.write payload area entropy).2 = h.write payload other entropy := by
      intro e hres hinert
      have heq := write_inert hres hinert
      exact ⟨e, heq, fun other => by rw [heq]⟩
    refine ⟨hends.tooSmall_iff rfl, fun hres => hsame _ hres (Or.inl rfl), ?_,
      fun hidle e hres => hsame e hres (Or.inr hidle)⟩
    intro hdue e he hres
    rw [hres] at hends
    exact hends.fails hdue he
  · intro message area
    have hends := h.read_ends message area
    have hsame : ∀ e, (h.read message area).result = .error e →
        e = .bufferTooSmall ∨ h.phase.awaitsMessage = false →
        ∃ e, h.read message area = ⟨h, area, .error e⟩ ∧
          ∀ other, (h.read message area).state.read message other = h.read message other := by
      intro e hres hinert
      have heq := read_inert hres hinert
      exact ⟨e, heq, fun other => by rw [heq]⟩
    refine ⟨hends.tooSmall_iff rfl, fun hres => hsame _ hres (Or.inl rfl), ?_,
      fun hidle e hres => hsame e hres (Or.inr hidle)⟩
    intro hdue e he hres
    rw [hres] at hends
    exact hends.fails hdue he

end NoiseChannel.Handshake
