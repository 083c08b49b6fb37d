import NoiseChannel.Proofs.Moves
import NoiseChannel.Proofs.Naming
import NoiseChannel.Proofs.Refinement

/-!
# The handshake hash and the transcript

Everything that goes into the handshake hash, where no pre-shared key does, is public: the name of
the protocol, the prologue, the keys known beforehand and the bytes of the messages.
`Protocol.transcriptHash` computes the hash from these, cutting the messages into fields at places
that only the pattern determines. `Told` relates a handshake to the transcript of the calls made on
it, and `Told.moves` carries it over every call, on whichever side and in whatever role.
-/

namespace NoiseChannel

/-! ## Transcripts -/

/-- What has been said in public in a handshake. -/
structure Transcript where
  /-- The sections of prologue, joined. -/
  prologue : Bytes := []
  /-- The public keys that were known before the first message. -/
  known : List PublicKey := []
  /-- The messages in the order in which they were written or read. -/
  messages : List Bytes := []
deriving DecidableEq, Repr

namespace Handshake

/-- The public keys that the pattern assumes known, as far as the party in `role` holds them. -/
def knownKeys (p : Pattern) (role : Role) (slots : KeySlots) : List PublicKey :=
  (p.knownBefore 0).flatMap fun (owner, t) =>
    (premessageKey slots (owner == role) t).toOption.toList

end Handshake

/-- The transcript with the keys known beforehand, which are those that a party `h` holds as it writes
or reads the first message. -/
def Transcript.settled (tr : Transcript) (h : Handshake) : Transcript :=
  match h.role with
  | some role =>
    if h.messageNumber = 0 then { tr with known := Handshake.knownKeys h.pattern role h.slots } else tr
  | none => tr

/-- The transcript after a call on the handshake `h` that adds `event`. -/
def Transcript.record (tr : Transcript) (h : Handshake) : Handshake.Event → Transcript
  | .nothing => tr
  | .opened prologue => { prologue }
  | .added piece => { tr with prologue := tr.prologue ++ piece }
  | .passed message => { tr.settled h with messages := tr.messages ++ [message] }

/-- The transcript after further calls on the handshake `h`. -/
def Handshake.transcript (h : Handshake) (tr : Transcript) : List Handshake.Call → Transcript
  | [] => tr
  | call :: calls => (h.after call).transcript (tr.record h (h.event call)) calls

theorem Transcript.messages_settled (tr : Transcript) (h : Handshake) :
    (tr.settled h).messages = tr.messages := by
  unfold settled
  split
  · split <;> rfl
  · rfl

/-! ## The hash of a transcript -/

/-- The fields of a message with the given tokens, the payload at the end. The cipher's having a key
tells how long an encrypted key is. -/
def Handshake.fieldsOf (usesPsk : Bool) : List Token → Bool → Bytes → List Bytes
  | [], _, message => [message]
  | t :: tokens, keyed, message =>
    let size := Handshake.tokenSize keyed t
    let later := fieldsOf usesPsk tokens (Handshake.keyedAfter usesPsk keyed t) (message.drop size)
    if t = .e ∨ t = .s then message.take size :: later else later

/-- The fields of the first messages of a handshake. -/
def Pattern.fields (p : Pattern) (messages : List Bytes) : List Bytes :=
  (messages.mapIdx fun n message =>
    Handshake.fieldsOf p.usesPsk (p.messages.getD n []) (p.keyedBefore n) message).flatten

/-- The hash that goes on from `hash` with one more piece of public data. -/
def DigestKind.absorb (digest : DigestKind) (hash piece : Bytes) : Bytes :=
  digest.digest (hash ++ piece)

/-- The hash of a handshake from the name of its protocol and what has been said in it. -/
def Protocol.transcriptHash (protocol : Protocol) (tr : Transcript) : Bytes :=
  let pieces := tr.prologue :: tr.known.map PublicKey.bytes ++ protocol.pattern.fields tr.messages
  pieces.foldl protocol.suite.digest.absorb
    (SymmetricState.nameHash protocol.suite.digest (Bytes.ofString protocol.name))

theorem Protocol.transcriptHash_snoc (protocol : Protocol) (tr : Transcript) (message : Bytes) :
    protocol.transcriptHash { tr with messages := tr.messages ++ [message] } =
      (Handshake.fieldsOf protocol.pattern.usesPsk
        (protocol.pattern.messages.getD tr.messages.length [])
        (protocol.pattern.keyedBefore tr.messages.length) message).foldl
        protocol.suite.digest.absorb (protocol.transcriptHash tr) := by
  simp only [transcriptHash, Pattern.fields, List.mapIdx_concat, List.flatten_append,
    List.flatten_singleton, List.cons_append, List.foldl_cons, List.foldl_append]

/-! ## What a message does to the hash -/

namespace Handshake

section Hash

variable {p : Pattern} {t : Token} {tokens : List Token} {s s' : SymmetricState}
  {field message : Bytes}

/-- A field is all of a token that goes into the hash, unless a pre-shared key does. -/
theorem Absorbs.eager_h (hpsk : p.usesPsk = false) (ht : t ≠ .psk) (h : Absorbs p s t field s') :
    s'.eager.digest = s.eager.digest ∧
      s'.eager.h = if t = .e ∨ t = .s then s.eager.digest.absorb s.eager.h field
        else s.eager.h := by
  cases h with
  | ephemeral key =>
    have hmixed : mixPublic p s .e key.bytes = s.mixHash key.bytes := by
      rw [mixPublic, hpsk, Bool.and_false]
      rfl
    rw [hmixed, SymmetricState.eager_mixHash, if_pos (Or.inl rfl)]
    exact ⟨rfl, rfl⟩
  | static key =>
    rw [SymmetricState.eager_passed, if_pos (Or.inr rfl)]
    exact ⟨rfl, rfl⟩
  | agreed secret he hs =>
    rw [if_neg (not_or.mpr ⟨he, hs⟩)]
    exact SymmetricState.eager_h_mixKey _ _
  | shared key => exact absurd rfl ht

theorem Conveys.eager_h (hpsk : p.usesPsk = false) (hs : s.WellKeyed)
    (h : Conveys p tokens s message s') (htokens : .psk ∉ tokens) :
    s'.eager.digest = s.eager.digest ∧
      s'.eager.h = (fieldsOf p.usesPsk tokens s.hasKey message).foldl s.eager.digest.absorb
        s.eager.h := by
  induction h with
  | payload plaintext =>
    rw [SymmetricState.eager_passed]
    exact ⟨rfl, rfl⟩
  | @token t tokens s s₁ s' field rest hfield _ ih =>
    obtain ⟨hfirst, hlater⟩ := not_or.mp (mt List.mem_cons.mpr htokens)
    obtain ⟨hdigest₁, hhash₁⟩ := hfield.eager_h hpsk (Ne.symm hfirst)
    obtain ⟨hdigest, hhash⟩ := ih (hfield.wellKeyed hs) hlater
    rw [hdigest₁] at hdigest hhash
    have htake : (field ++ rest).take (tokenSize s.hasKey t) = field :=
      List.take_left' (hfield.length_field hs)
    have hdrop : (field ++ rest).drop (tokenSize s.hasKey t) = rest :=
      List.drop_left' (hfield.length_field hs)
    refine ⟨hdigest, ?_⟩
    rw [hhash, hhash₁, hfield.hasKey_eq, fieldsOf, htake, hdrop]
    split <;> rfl

/-- Two patterns assume one key each known. -/
theorem knownKeys_eq (p : Pattern) (role : Role) (slots : KeySlots) :
    knownKeys p role slots =
      match p with
      | .xx | .nnPsk0 => []
      | .ik => (premessageKey slots (Role.responder == role) .s).toOption.toList
      | .xxFallback => (premessageKey slots (Role.initiator == role) .e).toOption.toList := by
  cases p with
  | xx | nnPsk0 => rfl
  | ik =>
    have hknown : Pattern.ik.knownBefore 0 = [(.responder, .s)] := rfl
    rw [knownKeys, hknown, List.flatMap_cons, List.flatMap_nil, List.append_nil]
  | xxFallback =>
    have hknown : Pattern.xxFallback.knownBefore 0 = [(.initiator, .e)] := rfl
    rw [knownKeys, hknown, List.flatMap_cons, List.flatMap_nil, List.append_nil]

/-- The keys known beforehand go into the hash in their order. -/
theorem mixPremessages_eager_h {role : Role} {slots : KeySlots}
    (h : mixPremessages p role slots s = .ok s') :
    s'.eager.digest = s.eager.digest ∧
      s'.eager.h = ((knownKeys p role slots).map PublicKey.bytes).foldl s.eager.digest.absorb
        s.eager.h := by
  rw [mixPremessages_eq] at h
  rw [knownKeys_eq]
  cases p with
  | xx | nnPsk0 =>
    cases h
    exact ⟨rfl, rfl⟩
  | ik | xxFallback =>
    obtain ⟨key, hkey, rfl⟩ := map_ok h
    rw [hkey, SymmetricState.eager_mixHash]
    exact ⟨rfl, rfl⟩

end Hash

/-! ## Runs -/

/-- How a handshake of a pattern without pre-shared key relates to the transcript of the calls made
on it. -/
structure Told (h : Handshake) (tr : Transcript) : Prop where
  /-- Until the first message there is the prologue and no more. -/
  first : h.phase = .write ∨ h.phase = .read → h.messageNumber = 0 →
    tr.known = [] ∧ tr.messages = [] ∧ h.symmetric = some (h.protocol.opening tr.prologue)
  /-- All messages have been recorded. -/
  length_eq : h.phase ≠ .failed → tr.messages.length = h.messageNumber
  /-- The pattern tells whether the cipher has a key. -/
  hasKey_eq : ∀ s, h.symmetric = some s → s.hasKey = h.pattern.keyedBefore h.messageNumber
  digest_eq : ∀ s, h.symmetric = some s → s.eager.digest = h.protocol.suite.digest
  /-- Once a message is through the hash is that of the transcript, -/
  hash_eq : ∀ s, h.symmetric = some s → h.messageNumber ≠ 0 →
    s.inPrologue = false ∧ s.hash = h.protocol.transcriptHash tr
  /-- also once the ciphers have been taken. -/
  finalHash_eq : h.phase = .finished → h.finalHash = some (h.protocol.transcriptHash tr)

theorem told_new (protocol : Protocol) : Told (new protocol) {} where
  first := by simp [new]
  length_eq := by simp [new]
  hasKey_eq := by simp [new]
  digest_eq := by simp [new]
  hash_eq := by simp [new]
  finalHash_eq := by simp [new]

theorem psk_not_mem {p : Pattern} (hpsk : p.usesPsk = false) {n : Nat} {tokens : List Token}
    (htokens : p.messages[n]? = some tokens) : .psk ∉ tokens := by
  intro hmem
  have huses := Pattern.usesPsk_of_mem ⟨tokens, List.mem_of_getElem? htokens, hmem⟩
  rw [hpsk] at huses
  cases huses

theorem opening_eager_h (protocol : Protocol) (prologue : Bytes) :
    (protocol.opening prologue).eager.h = protocol.transcriptHash { prologue } :=
  rfl

section Told

variable {h h' : Handshake} {tr : Transcript} {call : Call} {event : Event}

/-- The symmetric state that the tokens of the next message start from has the hash of what has been
said until then, the keys known beforehand included. -/
theorem Told.opened (ht : Told h tr) (hdue : h.phase = .write ∨ h.phase = .read) {role : Role}
    {tokens : List Token} {s : SymmetricState} (hopen : h.openMessage = .ok (role, tokens, s)) :
    s.hasKey = h.pattern.keyedBefore h.messageNumber ∧
      s.eager.digest = h.protocol.suite.digest ∧
      s.eager.h = h.protocol.transcriptHash (tr.settled h) := by
  obtain ⟨hrole, htokens, before, hsym, hstate⟩ := openMessage_ok hopen
  have hkey : s.hasKey = before.hasKey := congrArg CipherState.hasKey (openingState_cipher hstate)
  refine ⟨hkey.trans (ht.hasKey_eq before hsym), ?_⟩
  have hdigest := ht.digest_eq before hsym
  unfold openingState at hstate
  simp only [Transcript.settled, hrole]
  by_cases hn : h.messageNumber = 0
  · -- the first message closes the prologue and mixes in the keys known beforehand
    obtain ⟨-, hmessages, hopening⟩ := ht.first hdue hn
    rw [if_pos hn] at hstate ⊢
    obtain rfl : before = h.protocol.opening tr.prologue :=
      Option.some.inj (hsym.symm.trans hopening)
    obtain ⟨hdigest', hhash⟩ := mixPremessages_eager_h hstate
    rw [hdigest] at hdigest' hhash
    refine ⟨hdigest', ?_⟩
    rw [hhash, hmessages, opening_eager_h]
    simp [Protocol.transcriptHash, Pattern.fields]
  · rw [if_neg hn] at hstate ⊢
    obtain rfl : before = s := Except.ok.inj hstate
    obtain ⟨hpro, hhash⟩ := ht.hash_eq before hsym hn
    exact ⟨hdigest, (SymmetricState.eager_h hpro).trans hhash⟩

theorem Told.passed (hpsk : h.pattern.usesPsk = false) (hc : Counted h) (ht : Told h tr)
    (hdue : h.phase = .write ∨ h.phase = .read) {role : Role} {tokens : List Token}
    {s s' : SymmetricState} (hopen : h.openMessage = .ok (role, tokens, s)) {message : Bytes}
    (hconveys : Conveys h.pattern tokens s message s') (hpro : s'.inPrologue = false)
    (slots : KeySlots) :
    Told { h with slots, symmetric := some s' }.advance (tr.record h (.passed message)) := by
  obtain ⟨-, htokens, before, hsym, -⟩ := openMessage_ok hopen
  obtain ⟨hkey, hdigest, hhash⟩ := ht.opened hdue hopen
  obtain ⟨hdigest', hhash'⟩ :=
    hconveys.eager_h hpsk (hc.opened hopen).1 (psk_not_mem hpsk htokens)
  have hlength : tr.messages.length = h.messageNumber :=
    ht.length_eq (by rcases hdue with hp | hp <;> simp [hp])
  have hnext : h.pattern.messages.getD h.messageNumber [] = tokens := by
    rw [List.getD_eq_getElem?_getD]
    exact congrArg (Option.getD · []) htokens
  refine ⟨fun _ hn => absurd hn (Nat.succ_ne_zero _), ?_, ?_, ?_, ?_, ?_⟩
  · intro _
    rw [Transcript.record, List.length_append, hlength]
    rfl
  · rintro _ ⟨⟩
    show s'.hasKey = h.pattern.keyedBefore (h.messageNumber + 1)
    rw [hconveys.hasKey_eq, hkey, Pattern.keyedBefore, hnext]
  · rintro _ ⟨⟩
    exact hdigest'.trans hdigest
  · -- the fields that the message adds are those that its tokens have absorbed
    rintro _ ⟨⟩ -
    have hmessages : (tr.settled h).messages = tr.messages := tr.messages_settled h
    have hsnoc := h.protocol.transcriptHash_snoc (tr.settled h) message
    rw [hmessages, hlength] at hsnoc
    refine ⟨hpro, ?_⟩
    rw [← SymmetricState.eager_h hpro, hhash', hhash, hdigest, hkey, ← hnext]
    exact hsnoc.symm
  · intro hphase
    rcases phase_advance _ with hp | hp | hp <;> cases hp.symm.trans hphase

theorem Told.moves (hpsk : h.pattern.usesPsk = false) (hco : Coherent h) (hc : Counted h)
    (ht : Told h tr) (hmoves : Moves h call event h') : Told h' (tr.record h event) := by
  cases hmoves with
  | still => exact ht
  | failed hprotocol hphase hsym =>
    refine ⟨?_, ?_, ?_, ?_, ?_, ?_⟩ <;> simp [hphase, hsym]
  | rekeyed _ =>
    exact ⟨ht.first, ht.length_eq, ht.hasKey_eq, ht.digest_eq, ht.hash_eq, ht.finalHash_eq⟩
  | @started _ slots role prologue _ =>
    refine ⟨fun _ _ => ⟨rfl, rfl, rfl⟩, ?_, ?_, ?_, fun _ _ hn => absurd rfl hn, ?_⟩
    · exact fun _ => rfl
    · rintro _ ⟨⟩
      rfl
    · rintro _ ⟨⟩
      rfl
    · intro hphase
      rcases phaseFor_due h.pattern role 0 with hp | hp <;> cases hp.symm.trans hphase
  | added hdue hn hsym hmix =>
    obtain ⟨hknown, hmessages, hopening⟩ := ht.first hdue hn
    rw [hsym] at hopening
    cases hopening
    rw [opening_mixPrologue] at hmix
    cases hmix
    refine ⟨fun _ _ => ⟨hknown, hmessages, rfl⟩, ?_, ?_, ?_, fun _ _ hne => absurd hn hne, ?_⟩
    · exact ht.length_eq
    · rintro _ ⟨⟩
      show false = h.pattern.keyedBefore h.messageNumber
      rw [hn]
      rfl
    · rintro _ ⟨⟩
      rfl
    · intro hphase
      rcases hdue with hdue | hdue <;> cases hdue.symm.trans hphase
  | written hphase hopen hrun =>
    obtain ⟨_, _, _, _, _, hdue, hopen, hconveys, hpro, heq⟩ :=
      Moves.conveys (.written hphase hopen hrun) hc
    rw [heq]
    exact ht.passed hpsk hc hdue hopen hconveys hpro _
  | read hphase hopen ho hres =>
    obtain ⟨_, _, _, _, _, hdue, hopen, hconveys, hpro, heq⟩ :=
      Moves.conveys (.read hphase hopen ho hres) hc
    rw [heq]
    exact ht.passed hpsk hc hdue hopen hconveys hpro _
  | @split s hphase hsym =>
    have hn : h.messageNumber ≠ 0 := by
      rw [hco.number_eq (Or.inl hphase)]
      cases h.pattern <;> decide
    obtain ⟨hpro, hhash⟩ := ht.hash_eq s hsym hn
    refine ⟨by simp, fun _ => ht.length_eq (by simp [hphase]), by simp, by simp, by simp, fun _ => ?_⟩
    show some s.split.1 = some (h.protocol.transcriptHash tr)
    rw [SymmetricState.split_hash, SymmetricState.eager_h hpro, hhash]

theorem told_transcript (hpsk : h.pattern.usesPsk = false) (hco : Coherent h) (hc : Counted h)
    (ht : Told h tr) (calls : List Call) : Told (h.afterAll calls) (h.transcript tr calls) := by
  induction calls generalizing h tr with
  | nil => exact ht
  | cons call calls ih =>
    have hmoves := h.moves call
    have hpattern : (h.after call).pattern = h.pattern :=
      congrArg Protocol.pattern hmoves.protocol_eq
    refine ih ?_ (coherent_after hco call) (hc.moves hmoves) (ht.moves hpsk hco hc hmoves)
    rw [hpattern]
    exact hpsk

end Told

/-! ## The hash -/

/-- The handshake hash as it stands. -/
def hashSoFar (h : Handshake) : Option Bytes :=
  match h.symmetric with
  | some s => some s.hash
  | none => h.finalHash

/-- A message at least has been written or read, and the handshake has not failed. -/
def Underway (h : Handshake) : Prop :=
  h.messageNumber ≠ 0 ∧
    (h.phase = .write ∨ h.phase = .read ∨ h.phase = .split ∨ h.phase = .finished)

/-- A handshake that is underway has a symmetric state until its ciphers have been taken. -/
theorem Coherent.underway_cases {h : Handshake} (hco : Coherent h) (hunderway : h.Underway) :
    (∃ s, h.symmetric = some s) ∨ h.phase = .finished := by
  obtain ⟨-, hw | hr | hs | hf⟩ := hunderway
  · exact Or.inl (Option.isSome_iff_exists.mp (hco.symmetric_iff.mpr (Or.inl hw)))
  · exact Or.inl (Option.isSome_iff_exists.mp (hco.symmetric_iff.mpr (Or.inr (Or.inl hr))))
  · exact Or.inl (Option.isSome_iff_exists.mp (hco.symmetric_iff.mpr (Or.inr (Or.inr hs))))
  · exact Or.inr hf

theorem Told.hashSoFar_eq {h : Handshake} {tr : Transcript} (hco : Coherent h) (ht : Told h tr)
    (hunderway : h.Underway) : h.hashSoFar = some (h.protocol.transcriptHash tr) := by
  rcases hco.underway_cases hunderway with ⟨s, hsym⟩ | hphase
  · rw [hashSoFar, hsym, ← (ht.hash_eq s hsym hunderway.1).2]
  · have hnone : h.symmetric = none := hco.symmetric_none (by simp [hphase])
    rw [hashSoFar, hnone]
    exact ht.finalHash_eq hphase

/-- Once all messages are through, the hash so far is the handshake hash. -/
theorem Coherent.hash_eq {h : Handshake} (hco : Coherent h)
    (hphase : h.phase = .split ∨ h.phase = .finished) {hash : Bytes}
    (hhash : h.hashSoFar = some hash) : h.hash = .ok hash := by
  unfold hashSoFar at hhash
  rcases hphase with hp | hp
  · obtain ⟨s, hsym⟩ := Option.isSome_iff_exists.mp (hco.symmetric_iff.mpr (by simp [hp]))
    rw [hsym] at hhash
    simp only [Handshake.hash, hp, hsym, Option.map_some, Option.some.inj hhash]
  · have hnone : h.symmetric = none := hco.symmetric_none (by simp [hp])
    rw [hnone] at hhash
    simp only [Handshake.hash, hp, hhash]

/-- After any calls on a new handshake of a pattern without pre-shared key. -/
theorem reached_told {protocol : Protocol} (hpsk : protocol.pattern.usesPsk = false)
    (calls : List Call) :
    Coherent ((new protocol).afterAll calls) ∧
      Told ((new protocol).afterAll calls) ((new protocol).transcript {} calls) := by
  have hco := coherent_new protocol
  exact ⟨coherent_afterAll hco calls,
    told_transcript (h := new protocol) hpsk hco (counted_new protocol) (told_new protocol) calls⟩

/-- As soon as a message is through, the hash is that of the transcript. -/
theorem reached_hash {protocol : Protocol} (hpsk : protocol.pattern.usesPsk = false)
    {calls : List Call} (hunderway : ((new protocol).afterAll calls).Underway) :
    ((new protocol).afterAll calls).hashSoFar =
      some (protocol.transcriptHash ((new protocol).transcript {} calls)) := by
  obtain ⟨hco, ht⟩ := reached_told hpsk calls
  rw [ht.hashSoFar_eq hco hunderway, protocol_afterAll]
  rfl

end Handshake

/-- The handshake hash is a function of what has been said in public. Whatever calls are made on a
new handshake of a registered protocol without pre-shared key, in either role, as soon as a message
is through the hash is the one that is computed from the name of the protocol and the transcript,
and in the end it is the handshake hash that is given out. So two handshakes of protocols of one name
that have the same transcript, whoever wrote and whoever read, with whatever secrets, have the same
hash. -/
theorem hash_is_of_transcript {protocol : Protocol} (hregistered : protocol ∈ Protocol.registry)
    (hpattern : protocol.pattern ≠ .nnPsk0) (calls : List Handshake.Call) :
    let h := (Handshake.new protocol).afterAll calls
    let tr := (Handshake.new protocol).transcript {} calls
    (h.Underway → tr.messages.length = h.messageNumber ∧
      h.hashSoFar = some (protocol.transcriptHash tr) ∧
      (h.phase = .split ∨ h.phase = .finished → h.hash = .ok (protocol.transcriptHash tr))) ∧
    ∀ protocol' ∈ Protocol.registry, protocol'.name = protocol.name →
      ∀ calls' : List Handshake.Call,
        let h' := (Handshake.new protocol').afterAll calls'
        h.Underway → h'.Underway → (Handshake.new protocol').transcript {} calls' = tr →
          h'.hashSoFar = h.hashSoFar := by
  intro h tr
  have hpsk : protocol.pattern.usesPsk = false := by
    revert hpattern
    cases protocol.pattern <;> decide
  obtain ⟨hco, ht⟩ := Handshake.reached_told hpsk calls
  refine ⟨fun hunderway => ?_, ?_⟩
  · have hhash := Handshake.reached_hash hpsk hunderway
    have hphase : h.phase ≠ .failed := by
      obtain ⟨-, hp | hp | hp | hp⟩ := hunderway <;> rw [hp] <;> decide
    exact ⟨ht.length_eq hphase, hhash, fun hend => hco.hash_eq hend hhash⟩
  · intro protocol' hregistered' hname calls' h' hunderway hunderway' hsame
    obtain rfl := Protocol.eq_of_name hregistered' hregistered hname
    rw [Handshake.reached_hash hpsk hunderway', Handshake.reached_hash hpsk hunderway, hsame]

/-- The first message of XX, as its writer and as its reader record it. -/
theorem hash_is_of_transcript_xx :
    let message : Bytes := [
      47, 229, 125, 163, 71, 205, 98, 67, 21, 40, 218, 172, 95, 187, 41, 7, 48, 255, 246, 132, 175,
      196, 207, 194, 237, 144, 153, 95, 88, 203, 59, 116, 9]
    let writing : List Handshake.Call := [.setLocalPrivateKey (Bytes.zeros 32),
      .start .initiator [1], .addPrologue [2], .write [9] (Bytes.zeros 40) .silent]
    let reading : List Handshake.Call := [.setLocalPrivateKey (Bytes.zeros 32),
      .start .responder [1, 2], .read message [0]]
    let i := (Handshake.new .xxChaChaPolyBlake2s).afterAll writing
    let r := (Handshake.new .xxChaChaPolyBlake2s).afterAll reading
    (Handshake.new .xxChaChaPolyBlake2s).transcript {} writing = ⟨[1, 2], [], [message]⟩ ∧
      i.hashSoFar = some (Protocol.xxChaChaPolyBlake2s.transcriptHash ⟨[1, 2], [], [message]⟩) ∧
      r.hashSoFar = i.hashSoFar := by
  intro message writing reading i r
  have hwriting : (Handshake.new .xxChaChaPolyBlake2s).transcript {} writing =
      ⟨[1, 2], [], [message]⟩ := by
    decide +kernel
  have hreading : (Handshake.new .xxChaChaPolyBlake2s).transcript {} reading =
      ⟨[1, 2], [], [message]⟩ := by
    decide +kernel
  have hi : i.Underway := ⟨by decide +kernel, Or.inr (Or.inl (by decide +kernel))⟩
  have hr : r.Underway := ⟨by decide +kernel, Or.inl (by decide +kernel)⟩
  have hregistered : .xxChaChaPolyBlake2s ∈ Protocol.registry := by decide
  obtain ⟨hhash, hagree⟩ := hash_is_of_transcript hregistered (by decide) writing
  obtain ⟨-, hhash, -⟩ := hhash hi
  have hsame := hagree _ hregistered rfl reading hi hr (hreading.trans hwriting.symm)
  rw [hwriting] at hhash
  exact ⟨hwriting, hhash, hsame⟩

end NoiseChannel
