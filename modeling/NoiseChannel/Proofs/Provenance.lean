import NoiseChannel.Proofs.Failed
import NoiseChannel.Proofs.Moves

/-!
# Where an ephemeral pair comes from

The slot of a party's ephemeral pair is filled and emptied before the start, emptied by the start,
filled and emptied again until the first message, and filled at last by the message that sends the
key. A `Ledger` is kept beside a run: what has been chosen since the start, and which pair has been
sent. `Traced` ties the slot to it, and every call keeps that (`Traced.after`). So all that a run
announces and takes is one pair, and it is known where it comes from (`ephemeral_provenance`).
-/

namespace NoiseChannel

/-- The number of the first message that a party writes, if the initiator begins. -/
def Role.firstMessage : Role → Nat
  | .initiator => 0
  | .responder => 1

namespace Pattern

variable {p : Pattern} {n : Nat} {tokens : List Token} {role : Role}

/-- A party sends its ephemeral key in the first message that it writes, and in no other. -/
theorem sends_iff (hp : p.isFallback = false) (h : p.messages[n]? = some tokens)
    (hwriter : p.writer n = role) :
    role.firstMessage ≤ n ∧ (.e ∈ tokens ↔ n = role.firstMessage) := by
  have hall : ∀ m < p.messages.length, ∀ ts ∈ p.messages[m]?, ∀ role ∈ Role.all,
      p.writer m = role → role.firstMessage ≤ m ∧ (.e ∈ ts ↔ m = role.firstMessage) := by
    revert hp
    cases p <;> decide
  have hn : n < p.messages.length := (List.getElem?_eq_some_iff.mp h).1
  exact hall n hn tokens h role (by cases role <;> decide) hwriter

/-- Until then it takes its ephemeral pair for nothing. -/
theorem not_takes (hp : p.isFallback = false) (h : p.messages[n]? = some tokens)
    (hwriter : p.writer n ≠ role) (hle : n ≤ role.firstMessage) :
    n < role.firstMessage ∧ ∀ t ∈ tokens, t.takesEphemeral role = false := by
  have hall : ∀ m < p.messages.length, ∀ ts ∈ p.messages[m]?, ∀ role ∈ Role.all,
      p.writer m ≠ role → m ≤ role.firstMessage →
        m < role.firstMessage ∧ ∀ t ∈ ts, t.takesEphemeral role = false := by
    revert hp
    cases p <;> decide
  have hn : n < p.messages.length := (List.getElem?_eq_some_iff.mp h).1
  exact hall n hn tokens h role (by cases role <;> decide) hwriter hle

theorem localEphemeral_forgetStale (hp : p.isFallback = false) (slots : KeySlots) :
    (p.forgetStale slots).localEphemeral = none := by
  cases p with
  | xx | ik | nnPsk0 => rfl
  | xxFallback => cases hp

end Pattern

namespace Handshake

/-! ## The ledger of a run -/

/-- What there is to remember of a run about this party's ephemeral pair. -/
structure Ledger where
  /-- The pair that has been set since the start, unless it has been removed again. -/
  chosen : Option KeyPair := none
  /-- The pair that a message has announced. -/
  sent : Option KeyPair := none

/-- Whether a handshake is started and its first message is not through. -/
def Choosing (h : Handshake) : Prop :=
  (h.phase = .write ∨ h.phase = .read) ∧ h.messageNumber = 0

instance (h : Handshake) : Decidable h.Choosing := inferInstanceAs (Decidable (_ ∧ _))

/-- The ledger after a call on `h`. A message announces the pair that has been chosen, else the one
made from the next 32 bytes of the source that its writing is given. -/
def enter (h : Handshake) (l : Ledger) : Call → Ledger
  | .setLocalEphemeral pair => if h.Choosing then { l with chosen := some pair } else l
  | .removeKey .localEphemeral | .removeKey .remoteEphemeral =>
    if h.Choosing then { l with chosen := none } else l
  | .write payload area entropy =>
    if h.SendsEphemeral payload area then
      { l with sent := some (l.chosen.getD (KeyPair.generate entropy).1) }
    else l
  | _ => l

/-- The ledger after calls made in turn. -/
def ledger (h : Handshake) (l : Ledger) : List Call → Ledger
  | [] => l
  | call :: calls => (h.after call).ledger (h.enter l call) calls

/-- What the tokens of all messages in a run find in the slot of the ephemeral pair when they take
it. -/
def allEphemeralsUsed (h : Handshake) : List Call → List (Option KeyPair)
  | [] => []
  | call :: calls => h.ephemeralsUsed call ++ (h.after call).allEphemeralsUsed calls

variable {h h' : Handshake} {l : Ledger} {call : Call} {pair : KeyPair}

theorem ledger_append (before later : List Call) :
    h.ledger l (before ++ later) = (h.afterAll before).ledger (h.ledger l before) later := by
  induction before generalizing h l with
  | nil => rfl
  | cons call before ih => exact ih

theorem enter_keys (hkeys : call.changesKeys = true) :
    h.enter l call = if h.Choosing then { l with chosen := call.choose l.chosen } else l := by
  cases call with
  | setLocalEphemeral => rfl
  | removeKey id =>
    cases id with
    | localEphemeral | remoteEphemeral => rfl
    | localStatic | remoteStatic | presharedKey => exact (ite_self l).symm
  | setLocalKeyPair | setLocalPrivateKey | generateLocalKeyPair | setRemotePublicKey
  | setPresharedKey => exact (ite_self l).symm
  | start | startFallback | addPrologue | write | read | abandon | split | clear => cases hkeys

/-- Who is to read a message is not its writer. -/
theorem Coherent.not_writer (hco : Coherent h) (hphase : h.phase = .read) {role : Role}
    (hrole : h.role = some role) : h.pattern.writer h.messageNumber ≠ role := by
  intro hturn
  have hwrite := (hco.write_iff (Or.inr hphase) role hrole).mpr hturn.symm
  cases hphase.symm.trans hwrite

/-! ## The slot and the ledger -/

/-- How the slot of the ephemeral pair and the ledger hang together. -/
structure Traced (h : Handshake) (l : Ledger) : Prop where
  /-- Before the start nothing counts. -/
  initial : h.phase = .initial → l.chosen = none ∧ l.sent = none
  /-- Until this party has sent its key the slot holds what has been chosen. -/
  unsent : h.phase = .write ∨ h.phase = .read → l.sent = none →
    h.slots.localEphemeral = l.chosen ∧
      ∀ role, h.role = some role → h.messageNumber ≤ role.firstMessage
  /-- From then on it holds the pair that has been sent. -/
  sent : h.phase = .write ∨ h.phase = .read → ∀ pair, l.sent = some pair →
    h.slots.localEphemeral = some pair ∧
      ∀ role, h.role = some role → role.firstMessage < h.messageNumber

theorem traced_new (protocol : Protocol) : Traced (new protocol) {} := by
  have hidle : ¬ ((new protocol).phase = .write ∨ (new protocol).phase = .read) := by
    show ¬ (Phase.initial = .write ∨ Phase.initial = .read)
    decide
  exact ⟨fun _ => ⟨rfl, rfl⟩, fun hdue => absurd hdue hidle, fun hdue => absurd hdue hidle⟩

namespace Traced

/-- Once no message is due any more there is nothing to show. -/
theorem of_over (hphase : h.phase = .split ∨ h.phase = .finished ∨ h.phase = .failed) :
    Traced h l := by
  have hleft : h.phase ≠ .initial := by
    rcases hphase with hp | hp | hp <;> rw [hp] <;> decide
  have hidle : ¬ (h.phase = .write ∨ h.phase = .read) := by
    rcases hphase with hp | hp | hp <;> rw [hp] <;> decide
  exact ⟨fun hp => absurd hp hleft, fun hdue => absurd hdue hidle, fun hdue => absurd hdue hidle⟩

theorem of_failed (hphase : h.phase = .failed) : Traced h l := of_over (Or.inr (Or.inr hphase))

/-- A message that is about to be written carries this party's ephemeral key exactly if none has
been sent. -/
theorem sends_iff (hp : h.pattern.isFallback = false) (hco : Coherent h) (ht : Traced h l)
    (hphase : h.phase = .write) : .e ∈ h.nextTokens.getD [] ↔ l.sent = none := by
  obtain ⟨⟨role, hrole⟩, -⟩ := hco.due (Or.inl hphase)
  have hwriter := (hco.write_iff (Or.inl hphase) role hrole).mp hphase
  obtain ⟨tokens, htokens⟩ : ∃ tokens, h.nextTokens = some tokens :=
    ⟨_, List.getElem?_eq_getElem (hco.number_lt (Or.inl hphase))⟩
  obtain ⟨hle, hiff⟩ := Pattern.sends_iff hp htokens hwriter.symm
  rw [htokens, Option.getD_some, hiff]
  cases hsent : l.sent with
  | none =>
    have hn := (ht.unsent (Or.inl hphase) hsent).2 role hrole
    exact ⟨fun _ => rfl, fun _ => Nat.le_antisymm hn hle⟩
  | some pair =>
    have hn := (ht.sent (Or.inl hphase) pair hsent).2 role hrole
    exact ⟨fun heq => absurd heq (Nat.ne_of_gt hn), nofun⟩

/-- It is sent once. -/
theorem unsent_of_sends (hp : h.pattern.isFallback = false) (hco : Coherent h) (ht : Traced h l)
    {payload area : Bytes} (hsends : h.SendsEphemeral payload area) : l.sent = none :=
  (ht.sends_iff hp hco hsends.1).mp hsends.2.2

theorem not_sends (hp : h.pattern.isFallback = false) (hco : Coherent h) (ht : Traced h l)
    {payload area : Bytes} (hsent : l.sent = some pair) : ¬ h.SendsEphemeral payload area := by
  intro hsends
  cases (ht.unsent_of_sends hp hco hsends).symm.trans hsent

theorem sent_enter (hp : h.pattern.isFallback = false) (hco : Coherent h) (ht : Traced h l)
    (hsent : l.sent = some pair) (call : Call) : (h.enter l call).sent = some pair := by
  cases call with
  | write payload area entropy =>
    rw [enter, if_neg (ht.not_sends hp hco hsent)]
    exact hsent
  | setLocalKeyPair | setLocalPrivateKey | generateLocalKeyPair | setLocalEphemeral
  | setRemotePublicKey | setPresharedKey | removeKey =>
    rw [enter_keys rfl]
    split <;> exact hsent
  | start | startFallback | addPrologue | read | abandon | split | clear => exact hsent

/-- Whenever a token takes the ephemeral pair, it takes the one that is entered as sent. -/
theorem used (hp : h.pattern.isFallback = false) (hco : Coherent h) (ht : Traced h l)
    (call : Call) : ∀ mine ∈ h.ephemeralsUsed call,
      ∃ pair, mine = some pair ∧ (h.enter l call).sent = some pair := by
  intro mine hmem
  cases call with
  | write payload area entropy =>
    obtain ⟨hphase, hroom, -⟩ := ephemeralsUsed_write hmem
    cases hsent : l.sent with
    | none =>
      have hsends : h.SendsEphemeral payload area :=
        ⟨hphase, hroom, (ht.sends_iff hp hco hphase).mpr hsent⟩
      refine ⟨_, ephemeralsUsed_sends hsends mine hmem, ?_⟩
      rw [enter, if_pos hsends, (ht.unsent (Or.inl hphase) hsent).1]
    | some pair =>
      have hslot := (ht.sent (Or.inl hphase) pair hsent).1
      exact ⟨pair, ephemeralsUsed_settled hslot mine hmem, ht.sent_enter hp hco hsent _⟩
  | read message area =>
    obtain ⟨hphase, role, tokens, s, hopen, htaken⟩ := ephemeralsUsed_read hmem
    obtain ⟨hrole, htokens, -⟩ := openMessage_ok hopen
    cases hsent : l.sent with
    | none =>
      have hwriter := hco.not_writer hphase hrole
      have hn := (ht.unsent (Or.inr hphase) hsent).2 role hrole
      rw [ephemeralsTaken_eq_nil (Pattern.not_takes hp htokens hwriter hn).2] at htaken
      cases htaken
    | some pair =>
      have hslot := (ht.sent (Or.inr hphase) pair hsent).1
      have hmine := Reading.taken h.pattern role h.psk tokens _ mine htaken
      exact ⟨pair, hmine.trans hslot, ht.sent_enter hp hco hsent _⟩
  | setLocalKeyPair | setLocalPrivateKey | generateLocalKeyPair | setLocalEphemeral
  | setRemotePublicKey | setPresharedKey | removeKey | start | startFallback | addPrologue
  | abandon | split | clear => cases hmem

/-- What is chosen before the first message is what the slot holds. -/
theorem keys (hco : Coherent h) (ht : Traced h l) (hkeys : call.changesKeys = true) :
    Traced (h.after call) (h.enter l call) := by
  obtain ⟨slots, psk, hafter, -⟩ := after_keys h hkeys
  rw [enter_keys hkeys]
  by_cases hchoosing : h.Choosing
  · have hslot := (ephemerals_after_keys hkeys (checkKeysMutable_ok.mpr (Or.inr hchoosing))).1
    obtain ⟨⟨role, hrole⟩, -⟩ := hco.due hchoosing.1
    have hunsent : l.sent = none := by
      cases hsent : l.sent with
      | none => rfl
      | some pair =>
        have hlt := (ht.sent hchoosing.1 pair hsent).2 role hrole
        rw [hchoosing.2] at hlt
        exact absurd hlt (Nat.not_lt_zero _)
    obtain ⟨hchosen, hn⟩ := ht.unsent hchoosing.1 hunsent
    rw [hafter] at hslot ⊢
    rw [if_pos hchoosing]
    refine ⟨fun hinitial => ?_, fun _ _ => ?_, fun _ pair hsent => ?_⟩
    · rcases hchoosing.1 with hphase | hphase <;> cases hphase.symm.trans hinitial
    · exact ⟨hslot.trans (congrArg (fun current => call.choose current) hchosen), hn⟩
    · cases hunsent.symm.trans hsent
  · rw [if_neg hchoosing]
    by_cases hinitial : h.phase = .initial
    · have hidle : ¬ (h.phase = .write ∨ h.phase = .read) := by
        rw [hinitial]
        decide
      rw [hafter]
      exact ⟨ht.initial, fun hdue => absurd hdue hidle, fun hdue => absurd hdue hidle⟩
    · cases hcheck : h.checkKeysMutable with
      | ok u => exact ((checkKeysMutable_ok.mp hcheck).elim hinitial hchoosing).elim
      | error e =>
        rw [after_keys_fixed hkeys hcheck]
        exact ht

/-- A start forgets the pair, and nothing has been chosen yet. -/
theorem start (hp : h.pattern.isFallback = false) (ht : Traced h l) (role : Role)
    (prologue : Bytes) : Traced (h.start role prologue).1 l := by
  rcases h.start_cases role prologue with ⟨hphase, -, hstart⟩ | ⟨h', e, hstart, ⟨-, rfl⟩ | rfl⟩
  · obtain ⟨hchosen, hsent⟩ := ht.initial hphase
    rw [hstart]
    refine ⟨fun _ => ⟨hchosen, hsent⟩, fun _ _ => ⟨?_, fun _ _ => Nat.zero_le _⟩,
      fun _ pair hpair => ?_⟩
    · rw [hchosen]
      exact Pattern.localEphemeral_forgetStale hp h.slots
    · cases hsent.symm.trans hpair
  · rw [hstart]
    exact ht
  · rw [hstart]
    exact of_failed rfl

theorem startFallback (hp : h.pattern.isFallback = false) (ht : Traced h l) (attempt : Handshake)
    (role : Role) (prologue : Bytes) : Traced (h.startFallback attempt role prologue).1 l := by
  rcases h.startFallback_cases attempt role prologue with
    ⟨slots, hpattern, -⟩ | ⟨h', e, hstart, rfl | rfl⟩
  · rw [hpattern] at hp
    cases hp
  · rw [hstart]
    exact ht
  · rw [hstart]
    exact of_failed rfl

theorem addPrologue (hco : Coherent h) (ht : Traced h l) (piece : Bytes) :
    Traced (h.settle (h.addPrologue piece)) l := by
  by_cases hopen : h.Choosing
  · obtain ⟨s, hadd, -⟩ := hco.addPrologue_ok hopen.1 hopen.2 piece
    rw [hadd]
    exact ⟨ht.initial, ht.unsent, ht.sent⟩
  · obtain ⟨e, hadd⟩ := Coherent.addPrologue_error hopen piece
    rw [hadd]
    exact ht

/-- A message that goes through leaves the pair in the slot. -/
theorem advance {slots : KeySlots} {symmetric : Option SymmetricState}
    (hunsent : l.sent = none → slots.localEphemeral = l.chosen ∧
      ∀ role, h.role = some role → h.messageNumber < role.firstMessage)
    (hsent : ∀ pair, l.sent = some pair → slots.localEphemeral = some pair ∧
      ∀ role, h.role = some role → role.firstMessage ≤ h.messageNumber) :
    Traced { h with slots, symmetric }.advance l := by
  refine ⟨fun hinitial => ?_, fun _ => hunsent, fun _ pair hpair => ?_⟩
  · rcases phase_advance { h with slots, symmetric } with hp | hp | hp <;>
      cases hp.symm.trans hinitial
  · obtain ⟨hslot, hn⟩ := hsent pair hpair
    exact ⟨hslot, fun role hrole => Nat.lt_succ_of_le (hn role hrole)⟩

/-- The first message of this party sends its key; later ones leave the pair alone. -/
theorem write (hp : h.pattern.isFallback = false) (hco : Coherent h) (ht : Traced h l)
    (payload area : Bytes) (entropy : Entropy) :
    Traced (h.write payload area entropy).1.state (h.enter l (.write payload area entropy)) := by
  cases hwritten : (h.write payload area entropy).1.written with
  | ok message =>
    obtain ⟨hphase, role, tokens, s, w, hopen, -, -, hstate⟩ := write_ok hwritten
    obtain ⟨-, htokens, -⟩ := openMessage_ok hopen
    have hle : ∀ role, h.role = some role → role.firstMessage ≤ h.messageNumber := by
      intro role hrole
      have hwriter := (hco.write_iff (Or.inl hphase) role hrole).mp hphase
      exact (Pattern.sends_iff hp htokens hwriter.symm).1
    cases hsent : l.sent with
    | none =>
      have hsends := sends_of_written hwritten ((ht.sends_iff hp hco hphase).mpr hsent)
      obtain ⟨-, hslot, -⟩ := write_sends hwritten hsends
      rw [(ht.unsent (Or.inl hphase) hsent).1, hstate] at hslot
      rw [enter, if_pos hsends, hstate]
      refine advance (fun hunsent => ?_) fun pair hpair => ⟨hslot.trans hpair, hle⟩
      cases hunsent
    | some pair =>
      have hslot : (h.write payload area entropy).1.state.slots.localEphemeral = some pair :=
        write_settled (ht.sent (Or.inl hphase) pair hsent).1
      rw [hstate] at hslot
      rw [enter, if_neg (ht.not_sends hp hco hsent), hstate]
      refine advance (fun hunsent => ?_) fun pair' hpair => ⟨?_, hle⟩
      · cases hunsent.symm.trans hsent
      · exact hslot.trans (hsent.symm.trans hpair)
  | error e =>
    have hends := h.write_ends payload area entropy
    rw [map_error hwritten] at hends
    generalize (h.write payload area entropy).1.state = h' at hends ⊢
    cases hends with
    | tooSmall _ hshort =>
      rw [enter, if_neg (fun hsends => Nat.not_le.mpr hshort hsends.2.1)]
      exact ht
    | idle hidle _ =>
      have hnot : ¬ h.SendsEphemeral payload area := by
        rintro ⟨hphase, -⟩
        rw [hphase] at hidle
        cases hidle
      rw [enter, if_neg hnot]
      exact ht
    | failed => exact of_failed rfl

theorem read (hp : h.pattern.isFallback = false) (hco : Coherent h) (ht : Traced h l)
    (message area : Bytes) : Traced (h.read message area).state l := by
  cases hread : (h.read message area).result with
  | ok n =>
    obtain ⟨hphase, role, tokens, s, hopen, hrun, heq⟩ := read_ok hread
    obtain ⟨-, htokens, -⟩ := openMessage_ok hopen
    have hslot := h.read_own message area
    rw [heq, settleRead, hrun] at hslot ⊢
    refine advance (fun hunsent => ?_) fun pair hsent => ?_
    · obtain ⟨hchosen, hn⟩ := ht.unsent (Or.inr hphase) hunsent
      refine ⟨hslot.trans hchosen, fun role hrole => ?_⟩
      have hwriter := hco.not_writer hphase hrole
      exact (Pattern.not_takes hp htokens hwriter (hn role hrole)).1
    · obtain ⟨hpair, hn⟩ := ht.sent (Or.inr hphase) pair hsent
      exact ⟨hslot.trans hpair, fun role hrole => Nat.le_of_lt (hn role hrole)⟩
  | error e =>
    have hends := h.read_ends message area
    rw [hread] at hends
    generalize (h.read message area).state = h' at hends ⊢
    cases hends with
    | tooSmall | idle => exact ht
    | failed => exact of_failed rfl

/-- Every call keeps slot and ledger together. -/
theorem after (hp : h.pattern.isFallback = false) (hco : Coherent h) (ht : Traced h l)
    (call : Call) : Traced (h.after call) (h.enter l call) := by
  cases call with
  | setLocalKeyPair | setLocalPrivateKey | generateLocalKeyPair | setLocalEphemeral
  | setRemotePublicKey | setPresharedKey | removeKey => exact ht.keys hco rfl
  | start role prologue => exact ht.start hp role prologue
  | startFallback attempt role prologue => exact ht.startFallback hp attempt role prologue
  | addPrologue piece => exact ht.addPrologue hco piece
  | write payload area entropy => exact ht.write hp hco payload area entropy
  | read message area => exact ht.read hp hco message area
  | abandon =>
    show Traced h.abandon l
    unfold Handshake.abandon
    split
    · exact of_failed rfl
    · exact ht
  | split =>
    show Traced h.split.1 l
    by_cases hphase : h.phase = .split
    · obtain ⟨role, s, -, -, hsplit⟩ := hco.split_ok hphase
      rw [hsplit]
      exact of_over (Or.inr (Or.inl rfl))
    · rw [Coherent.split_error hphase]
      exact ht
  | clear => exact of_failed rfl

/-- So does every sequence of calls, and every pair that is taken meanwhile is the one that is
entered as sent in the end. -/
theorem afterAll (hp : h.pattern.isFallback = false) (hco : Coherent h) (ht : Traced h l)
    (calls : List Call) :
    Traced (h.afterAll calls) (h.ledger l calls) ∧
      (∀ pair, l.sent = some pair → (h.ledger l calls).sent = some pair) ∧
      ∀ mine ∈ h.allEphemeralsUsed calls,
        ∃ pair, mine = some pair ∧ (h.ledger l calls).sent = some pair := by
  induction calls generalizing h l with
  | nil => exact ⟨ht, fun _ hsent => hsent, fun mine hmem => absurd hmem List.not_mem_nil⟩
  | cons call calls ih =>
    have hpattern : (h.after call).pattern.isFallback = false := by
      have hkept := congrArg Protocol.pattern (h.moves call).protocol_eq
      exact (congrArg Pattern.isFallback hkept).trans hp
    obtain ⟨htraced, hlater, hused⟩ :=
      ih hpattern (coherent_after hco call) (ht.after hp hco call)
    refine ⟨htraced, fun pair hsent => hlater pair (ht.sent_enter hp hco hsent call), ?_⟩
    intro mine hmem
    rcases List.mem_append.mp hmem with hnow | hthen
    · obtain ⟨pair, hmine, hsent⟩ := ht.used hp hco call mine hnow
      exact ⟨pair, hmine, hlater pair hsent⟩
    · exact hused mine hthen

end Traced

/-! ## From the first message on -/

theorem Moves.fixes {message : Bytes} (hmoves : Moves h call (.passed message) h') :
    h'.checkKeysMutable ≠ .ok () := by
  cases hmoves with
  | written | read => exact keys_fixed_advance _

theorem Moves.keeps_fixed {event : Event} (hmoves : Moves h call event h')
    (hfixed : h.checkKeysMutable ≠ .ok ()) : h'.checkKeysMutable ≠ .ok () := by
  rw [ne_eq, checkKeysMutable_ok] at hfixed
  cases hmoves with
  | still | rekeyed => rwa [ne_eq, checkKeysMutable_ok]
  | failed _ hphase _ =>
    rw [checkKeysMutable_failed hphase]
    intro hok
    cases hok
  | started hphase => exact absurd (Or.inl hphase) hfixed
  | added hdue hn _ _ => exact absurd (Or.inr ⟨hdue, hn⟩) hfixed
  | written | read => exact keys_fixed_advance _
  | split =>
    intro hok
    cases hok

/-- A start comes to nothing after the start. -/
theorem start_again (hphase : h.phase ≠ .initial) (role : Role) (prologue : Bytes) :
    (h.start role prologue).1 = h := by
  unfold start
  split
  · exact absurd ‹_› hphase
  · rfl
  · rfl

theorem startFallback_again (hphase : h.phase ≠ .initial) (attempt : Handshake) (role : Role)
    (prologue : Bytes) : (h.startFallback attempt role prologue).1 = h := by
  have hnot :
      ¬ (h.pattern.isFallback && h.phase == .initial && attempt.phase == .failed) = true := by
    simp [hphase]
  rw [startFallback, if_neg hnot]

/-- Nothing happens any more once the ciphers have been taken. -/
theorem after_finished (hphase : h.phase = .finished) (hcall : call ≠ .clear) :
    h.after call = h := by
  have hleft : h.phase ≠ .initial := by
    rw [hphase]
    decide
  have hidle : h.phase.awaitsMessage = false := by
    rw [hphase]
    rfl
  have hkeys : h.checkKeysMutable = .error .wrongState := by rw [checkKeysMutable, hphase]
  cases call with
  | setLocalKeyPair | setLocalPrivateKey | generateLocalKeyPair | setLocalEphemeral
  | setRemotePublicKey | setPresharedKey | removeKey => exact after_keys_fixed rfl hkeys
  | start role prologue => exact start_again hleft role prologue
  | startFallback attempt role prologue => exact startFallback_again hleft attempt role prologue
  | addPrologue piece => rw [after, addPrologue, hphase, settle]
  | write payload area entropy =>
    obtain ⟨e, href⟩ : ∃ e, h.refusal? .write = some (h, e) := refusal_idle hidle rfl
    rw [after, write, href]
  | read message area =>
    obtain ⟨e, href⟩ : ∃ e, h.refusal? .read = some (h, e) := refusal_idle hidle rfl
    rw [after, read, href]
  | abandon =>
    rw [after, abandon, if_neg]
    rw [hidle]
    decide
  | split =>
    rw [after, Coherent.split_error]
    rw [hphase]
    decide
  | clear => exact absurd rfl hcall

/-- Keys are fixed, and the slot holds this pair until the ciphers are taken. -/
structure Keeps (pair : KeyPair) (h : Handshake) : Prop where
  fixed : h.checkKeysMutable ≠ .ok ()
  slot_eq : h.phase ≠ .finished → h.slots.localEphemeral = some pair

/-- Nothing but clearing can change that. -/
theorem Keeps.after (hk : Keeps pair h) (hcall : call ≠ .clear) : Keeps pair (h.after call) := by
  refine ⟨(h.moves call).keeps_fixed hk.fixed, ?_⟩
  by_cases hover : h.phase = .finished
  · rw [after_finished hover hcall]
    exact hk.slot_eq
  intro hnot
  have hslot := hk.slot_eq hover
  have hleft : h.phase ≠ .initial := fun hp => hk.fixed (checkKeysMutable_ok.mpr (Or.inl hp))
  cases call with
  | setLocalKeyPair | setLocalPrivateKey | generateLocalKeyPair | setLocalEphemeral
  | setRemotePublicKey | setPresharedKey | removeKey =>
    cases hcheck : h.checkKeysMutable with
    | ok u => exact absurd hcheck hk.fixed
    | error e =>
      rw [after_keys_fixed rfl hcheck]
      exact hslot
  | start role prologue =>
    rw [Handshake.after, start_again hleft]
    exact hslot
  | startFallback attempt role prologue =>
    rw [Handshake.after, startFallback_again hleft]
    exact hslot
  | addPrologue piece =>
    have hthrough : ¬ ((h.phase = .write ∨ h.phase = .read) ∧ h.messageNumber = 0) :=
      fun hopen => hk.fixed (checkKeysMutable_ok.mpr (Or.inr hopen))
    obtain ⟨e, hadd⟩ := Coherent.addPrologue_error hthrough piece
    rw [Handshake.after, hadd]
    exact hslot
  | write payload area entropy => exact write_settled hslot
  | read message area => exact (h.read_own message area).trans hslot
  | abandon =>
    rw [Handshake.after, Handshake.abandon]
    split <;> exact hslot
  | split =>
    rw [Handshake.after, Handshake.split] at hnot ⊢
    split at hnot
    · exact absurd rfl hnot
    · exact hslot
  | clear => exact absurd rfl hcall

theorem Keeps.afterAll (hk : Keeps pair h) {calls : List Call} (hcalls : .clear ∉ calls) :
    Keeps pair (h.afterAll calls) := by
  refine afterAll_keeps (Q := fun call => call ≠ .clear) (fun h call hcall hk => hk.after hcall)
    ?_ hk
  rintro call hmem rfl
  exact hcalls hmem

/-! ## Every run -/

/-- Where the ephemeral pair comes from in a run, and what becomes of it. -/
structure Provenance (protocol : Protocol) (calls : List Call) : Prop where
  /-- All agreements that take the pair take the same one, and it is the one that is sent. -/
  used : ∀ mine ∈ (new protocol).allEphemeralsUsed calls,
    mine.isSome = true ∧ mine = ((new protocol).ledger {} calls).sent
  /-- What is found in the slot is what the agreement is made with: a token that takes the pair mixes
  in what it agrees on with a key of the peer, and every other token does the same whatever is in
  the slot. -/
  taken : ∀ (t : Token) (role : Role) (slots : KeySlots) (psk : Option PresharedKey)
    (s : SymmetricState),
    if t.takesEphemeral role then
      ∃ theirs, (theirs = slots.remoteEphemeral ∨ theirs = slots.remoteStatic) ∧
        mixSecret slots psk role s t =
          (KeySlots.agree slots.localEphemeral theirs).map fun secret => s.mixKey secret.bytes
    else
      ∀ mine, mixSecret { slots with localEphemeral := mine } psk role s t =
        mixSecret slots psk role s t
  /-- A start leaves nothing of what has been set before it. -/
  started : ∀ before role prologue later, calls = before ++ .start role prologue :: later →
    let h := (new protocol).afterAll before
    (h.start role prologue).2 = .ok () →
      (h.start role prologue).1.slots.localEphemeral = none ∧
        ((new protocol).ledger {} before).chosen = none
  /-- A message that carries the key begins with that of the pair that has been chosen since the
  start, else of the one made from the next 32 bytes of the source that its writing is given. -/
  announced : ∀ before payload area entropy later,
    calls = before ++ .write payload area entropy :: later →
    let h := (new protocol).afterAll before
    let chosen := ((new protocol).ledger {} before).chosen
    let o := h.write payload area entropy
    ∀ message, o.1.written = .ok message → h.SendsEphemeral payload area →
      let pair := chosen.getD
        (KeyPair.ofSecret ⟨entropy.take 32, Entropy.length_take entropy 32⟩)
      ((new protocol).ledger {} calls).sent = some pair ∧
        message.take 32 = pair.publicKey.bytes ∧ o.1.state.slots.localEphemeral = some pair ∧
        o.2 = if chosen.isSome then entropy else entropy.drop 32
  /-- Writing draws in no other case, and never if there is too little room. -/
  drawn : ∀ before payload area entropy later,
    calls = before ++ .write payload area entropy :: later →
    let h := (new protocol).afterAll before
    let chosen := ((new protocol).ledger {} before).chosen
    let o := h.write payload area entropy
    (o.2 = entropy ∨ o.2 = entropy.drop 32 ∧ chosen = none ∧ h.SendsEphemeral payload area) ∧
      (o.1.result = .error .bufferTooSmall → o.2 = entropy)
  /-- What is in the slot when a message goes through stays there until the ciphers are taken or the
  handshake is cleared. -/
  kept : ∀ before call later message, calls = before ++ call :: later →
    let h := (new protocol).afterAll before
    let h' := (new protocol).afterAll calls
    h.event call = .passed message → .clear ∉ later → h'.phase ≠ .finished →
      ∀ pair, (h.after call).slots.localEphemeral = some pair →
        h'.slots.localEphemeral = some pair

/-- In every run of a protocol that does not fall back, a party announces and uses one ephemeral
pair: the last one that it has been given between the start and the first message, if that has not
been removed again, else the one made from the first 32 bytes of the source given to the writing of
the message that carries the key. A pair given before the start is forgotten. Nothing else is drawn,
least of all by a call that finds too little room, and once a message is through the pair stays. -/
theorem ephemeral_provenance {protocol : Protocol} (hafresh : protocol.pattern.isFallback = false)
    (calls : List Call) : Provenance protocol calls := by
  have hpattern : ∀ before, ((new protocol).afterAll before).pattern.isFallback = false := by
    intro before
    have hkept := congrArg Protocol.pattern (protocol_afterAll (new protocol) before)
    exact (congrArg Pattern.isFallback hkept).trans hafresh
  have hcoherent : ∀ before, Coherent ((new protocol).afterAll before) :=
    coherent_afterAll (coherent_new protocol)
  have hall :=
    Traced.afterAll (h := new protocol) hafresh (coherent_new protocol) (traced_new protocol)
  constructor
  · intro mine hmem
    obtain ⟨pair, rfl, hsent⟩ := (hall calls).2.2 mine hmem
    exact ⟨rfl, hsent.symm⟩
  · intro t role slots psk s
    split
    · rename_i htakes
      exact mixSecret_takes htakes slots psk s
    · rename_i htakes
      intro mine
      exact mixSecret_ignores (Bool.eq_false_iff.mpr htakes) slots mine psk s
  · intro before role prologue later hcalls h hok
    rcases h.start_cases role prologue with ⟨hphase, -, hstart⟩ | ⟨h', e, hstart, -⟩
    · rw [hstart]
      exact ⟨Pattern.localEphemeral_forgetStale (hpattern before) _,
        ((hall before).1.initial hphase).1⟩
    · rw [hstart] at hok
      cases hok
  · intro before payload area entropy later hcalls h chosen o message hwritten hsends pair
    obtain ⟨htraced, -⟩ := hall before
    have hunsent := htraced.unsent_of_sends (hpattern before) (hcoherent before) hsends
    have hslot : h.slots.localEphemeral = chosen := (htraced.unsent (Or.inl hsends.1) hunsent).1
    obtain ⟨hfront, hmine, hleft⟩ := write_sends hwritten hsends
    rw [hslot] at hfront hmine hleft
    refine ⟨?_, hfront, hmine, hleft⟩
    -- the ledger keeps what is entered now
    have hsplit : calls = (before ++ [.write payload area entropy]) ++ later := by
      rw [hcalls, List.append_assoc]
      rfl
    rw [hsplit, ledger_append]
    refine (Traced.afterAll (hpattern _) (hcoherent _) (hall _).1 later).2.1 pair ?_
    rw [ledger_append]
    show (h.enter _ (.write payload area entropy)).sent = some pair
    rw [enter, if_pos hsends]
    rfl
  · intro before payload area entropy later hcalls h chosen o
    obtain ⟨htraced, -⟩ := hall before
    refine ⟨?_, fun hsmall => ?_⟩
    · rcases h.write_drawn payload area entropy with hleft | ⟨hleft, hnone, hsends⟩
      · exact Or.inl hleft
      · have hunsent := htraced.unsent_of_sends (hpattern before) (hcoherent before) hsends
        have hslot := (htraced.unsent (Or.inl hsends.1) hunsent).1
        exact Or.inr ⟨hleft, hslot.symm.trans hnone, hsends⟩
    · exact congrArg Prod.snd (write_inert hsmall (Or.inl rfl))
  · intro before call later message hcalls h h' hevent hclear hphase pair hslot
    have hmoves := h.moves call
    rw [hevent] at hmoves
    have hkeeps : Keeps pair (h.after call) := ⟨hmoves.fixes, fun _ => hslot⟩
    have hlater : h' = (h.after call).afterAll later := by
      show (new protocol).afterAll calls = _
      rw [hcalls, afterAll, List.foldl_append]
      rfl
    rw [hlater] at hphase ⊢
    exact (hkeeps.afterAll hclear).slot_eq hphase

/-- An initiator of XX sets a pair before the start, sets it again afterwards, removes it by the
name of the peer's key, and finds too little room at first. The pair that it sends and uses is a
fresh one. -/
theorem ephemeral_provenance_xx :
    let x := KeyPair.ofSecret ⟨List.replicate 32 1, rfl⟩
    let before : List Call := [.setLocalKeyPair x, .setLocalEphemeral x, .start .initiator [],
      .setLocalEphemeral x, .removeKey .remoteEphemeral, .write [] [] .silent]
    let entropy := Entropy.cycle [5, 7]
    let fresh := KeyPair.ofSecret ⟨entropy.take 32, Entropy.length_take entropy 32⟩
    let h := (new .xxChaChaPolyBlake2s).afterAll before
    let o := h.write [] (Bytes.zeros 32) entropy
    (∃ message, o.1.written = .ok message ∧ message.take 32 = fresh.publicKey.bytes) ∧
      o.2 = entropy.drop 32 ∧
      ∀ later, ∀ mine ∈ (new .xxChaChaPolyBlake2s).allEphemeralsUsed
        (before ++ .write [] (Bytes.zeros 32) entropy :: later), mine = some fresh := by
  intro x before entropy fresh h o
  have hall : ∀ later, Provenance .xxChaChaPolyBlake2s
      (before ++ .write [] (Bytes.zeros 32) entropy :: later) :=
    fun later => ephemeral_provenance rfl _
  have hsends : h.SendsEphemeral [] (Bytes.zeros 32) := by decide +kernel
  have hchosen : ((new .xxChaChaPolyBlake2s).ledger {} before).chosen = none := by
    decide +kernel
  have hok : o.1.written.toOption.isSome = true := by decide +kernel
  obtain ⟨message, hwritten⟩ : ∃ message, o.1.written = .ok message := by
    cases hresult : o.1.written with
    | ok message => exact ⟨message, rfl⟩
    | error e =>
      rw [hresult] at hok
      cases hok
  have hannounced : ∀ later,
      ((new .xxChaChaPolyBlake2s).ledger {}
          (before ++ .write [] (Bytes.zeros 32) entropy :: later)).sent = some fresh ∧
        message.take 32 = fresh.publicKey.bytes ∧ o.2 = entropy.drop 32 := by
    intro later
    obtain ⟨hsent, hfront, -, hleft⟩ := (hall later).announced before [] (Bytes.zeros 32) entropy
      later rfl message hwritten hsends
    rw [hchosen] at hsent hfront hleft
    exact ⟨hsent, hfront, hleft⟩
  refine ⟨⟨message, hwritten, (hannounced []).2.1⟩, (hannounced []).2.2, fun later mine hmem => ?_⟩
  exact ((hall later).used mine hmem).2.trans (hannounced later).1

end Handshake

end NoiseChannel
