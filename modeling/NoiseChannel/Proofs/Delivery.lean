import NoiseChannel.Proofs.Agreement
import NoiseChannel.Proofs.Nonces

/-!
# Delivery between the two ends of a channel

What a transport sends is a sequence of marks: messages, and changes of the key between them. `Emits`
says that a cipher produces such a sequence, and `Follows` that the calls on the other end go along
it, however they are mixed with rejected messages and with calls for the other direction. The cipher
for receiving then goes through the same states as the one for sending (`Emits.follows`). The two
directions of a transport have nothing in common (`Direction.answers_filter`).
-/

namespace NoiseChannel

namespace Transport

/-! ## The two directions of a transport -/

/-- Whether a call is for the direction to the peer. -/
def Call.sends : Call → Bool
  | .write _ _ | .rekeySend => true
  | .read _ _ | .rekeyReceive | .setReceiveNonce _ => false

def Call.receives (call : Call) : Bool := !call.sends

/-- What the caller gets: the area and the result of a call that writes or reads. -/
def answer (t : Transport) : Call → Option (Bytes × Except Error Nat)
  | .write payload area => some ((t.write payload area).area, (t.write payload area).result)
  | .read message area => some ((t.read message area).area, (t.read message area).result)
  | _ => none

/-- What the caller gets from the calls in `which`, in the course of a sequence of calls. -/
def answers (which : Call → Bool) : Transport → List Call → List (Option (Bytes × Except Error Nat))
  | _, [] => []
  | t, call :: calls =>
    if which call then t.answer call :: (t.after call).answers which calls
    else (t.after call).answers which calls

/-- The calls in `which` depend on the cipher `half` alone, and the other calls leave it alone. -/
structure Direction (which : Call → Bool) (half : Transport → CipherState) : Prop where
  congr : ∀ {t u : Transport} {call : Call}, half t = half u → which call = true →
    t.answer call = u.answer call ∧ half (t.after call) = half (u.after call)
  apart : ∀ {t : Transport} {call : Call}, which call = false → half (t.after call) = half t

theorem direction_send : Direction Call.sends send where
  congr := by
    intro t u call hsend h
    cases call with
    | write payload area =>
      constructor
      · show some ((t.send.encrypt [] payload area).area,
          (t.send.encrypt [] payload area).result) = _
        rw [hsend]
        rfl
      · show (t.send.encrypt [] payload area).state = _
        rw [hsend]
        rfl
    | rekeySend =>
      refine ⟨rfl, ?_⟩
      show t.send.rekey = _
      rw [hsend]
      rfl
    | read | rekeyReceive | setReceiveNonce => cases h
  apart := by
    intro t call h
    cases call with
    | write | rekeySend => cases h
    | read | rekeyReceive | setReceiveNonce => rfl

theorem direction_receive : Direction Call.receives receive where
  congr := by
    intro t u call hreceive h
    cases call with
    | read message area =>
      constructor
      · show some ((t.receive.decrypt [] message area).area,
          (t.receive.decrypt [] message area).result) = _
        rw [hreceive]
        rfl
      · show (t.receive.decrypt [] message area).state = _
        rw [hreceive]
        rfl
    | rekeyReceive =>
      refine ⟨rfl, ?_⟩
      show t.receive.rekey = _
      rw [hreceive]
      rfl
    | setReceiveNonce nonce =>
      refine ⟨rfl, ?_⟩
      show t.receive.setNonce nonce = _
      rw [hreceive]
      rfl
    | write | rekeySend => cases h
  apart := by
    intro t call h
    cases call with
    | write | rekeySend => rfl
    | read | rekeyReceive | setReceiveNonce => cases h

/-- Without the calls for the other direction, those for this one answer alike and leave the same
cipher. -/
theorem Direction.answers_filter {which : Call → Bool} {half : Transport → CipherState}
    (hd : Direction which half) {t u : Transport} (hhalf : half t = half u) (calls : List Call) :
    t.answers which calls = u.answers which (calls.filter which) ∧
      half (t.afterAll calls) = half (u.afterAll (calls.filter which)) := by
  -- `u` skips the other calls, so the two need not agree on the other cipher
  induction calls generalizing t u with
  | nil => exact ⟨rfl, hhalf⟩
  | cons call calls ih =>
    cases hcall : which call with
    | true =>
      obtain ⟨hanswer, hafter⟩ := hd.congr hhalf hcall
      obtain ⟨hanswers, hend⟩ := ih hafter
      rw [List.filter_cons_of_pos hcall, answers, answers, if_pos hcall, if_pos hcall, hanswer,
        hanswers]
      exact ⟨rfl, hend⟩
    | false =>
      have hnot : ¬ which call = true := by
        rw [hcall]
        decide
      rw [List.filter_cons_of_neg hnot, answers, if_neg hnot]
      exact ih ((hd.apart hcall).trans hhalf)

/-! ## What one end sends -/

/-- What goes out to the peer: a message, or a change of the key. -/
inductive Mark where
  | message (payload bytes : Bytes)
  | rekey
deriving DecidableEq, Repr

def payloads : List Mark → List Bytes
  | [] => []
  | .message payload _ :: marks => payload :: payloads marks
  | .rekey :: marks => payloads marks

/-- What a call sends. -/
def mark? (t : Transport) (call : Call) : Option Mark :=
  match call with
  | .rekeySend => some .rekey
  | _ => (t.sealing? call).map fun x => .message x.payload x.message

def marks : Transport → List Call → List Mark
  | _, [] => []
  | t, call :: calls => (t.mark? call).toList ++ (t.after call).marks calls

/-- A cipher produces these messages and changes of its key. -/
def Emits : CipherState → List Mark → Prop
  | _, [] => True
  | s, .message payload bytes :: marks =>
    bytes = s.ciphertext [] payload ∧ ¬ s.Exhausted ∧ Emits s.passed marks
  | s, .rekey :: marks => Emits s.rekey marks

theorem mark?_of_ne {t : Transport} {call : Call} (h : call ≠ .rekeySend) :
    t.mark? call = (t.sealing? call).map fun x => .message x.payload x.message := by
  cases call with
  | rekeySend => exact absurd rfl h
  | write payload area => rfl
  | read message area => rfl
  | rekeyReceive => rfl
  | setReceiveNonce nonce => rfl

/-- What a transport sends is what its cipher produces. -/
theorem emits_marks {t : Transport} (ht : t.send.Keyed) (calls : List Call) :
    Emits t.send (t.marks calls) := by
  induction calls generalizing t with
  | nil => trivial
  | cons call calls ih =>
    have hrest := ih (keyed_send_after ht call)
    rw [marks]
    by_cases hrekey : call = .rekeySend
    · subst hrekey
      exact hrest
    · rw [mark?_of_ne hrekey]
      cases hx : t.sealing? call with
      | none =>
        rcases send_after_of_none hx with hsend | ⟨habsurd, -⟩
        · rw [hsend] at hrest
          exact hrest
        · exact absurd habsurd hrekey
      | some x =>
        obtain ⟨-, -, -, hn, hmessage, hsend⟩ := sealing_some ht hx
        rw [hsend] at hrest
        exact ⟨hmessage, fun hlast => hn (ht.exhausted_iff.mp hlast), hrest⟩

/-- The payloads that go out are those of the messages that are sealed. -/
theorem payloads_marks (t : Transport) (calls : List Call) :
    payloads (t.marks calls) = (t.sealings calls).map Sealing.payload := by
  induction calls generalizing t with
  | nil => rfl
  | cons call calls ih =>
    rw [marks, sealings]
    by_cases hrekey : call = .rekeySend
    · subst hrekey
      exact ih _
    · rw [mark?_of_ne hrekey]
      cases t.sealing? call with
      | none => exact ih _
      | some x => exact congrArg (x.payload :: ·) (ih _)

/-! ## What the other end receives -/

/-- The payload that a call accepts. -/
def accepted? (t : Transport) : Call → Option Bytes
  | .read message area => (t.read message area).written.toOption
  | _ => none

/-- The payloads that a sequence of calls accepts. -/
def accepted : Transport → List Call → List Bytes
  | _, [] => []
  | t, call :: calls => (t.accepted? call).toList ++ (t.after call).accepted calls

/-- The calls on a transport go along the marks that its peer has sent, until `left` is left of them:
a message is read when it is the next one, into an area with room for its payload, and the key is
changed where the peer has changed it. In between anything may be read that is rejected, and anything
may be sent. -/
inductive Follows : Transport → List Call → List Mark → List Mark → Prop where
  | done {t : Transport} {left : List Mark} : Follows t [] left left
  | deliver {t : Transport} {payload message area : Bytes} {calls : List Call}
      {marks left : List Mark} (hroom : payload.length ≤ area.length)
      (h : Follows (t.after (.read message area)) calls marks left) :
      Follows t (.read message area :: calls) (.message payload message :: marks) left
  | rekey {t : Transport} {calls : List Call} {marks left : List Mark}
      (h : Follows (t.after .rekeyReceive) calls marks left) :
      Follows t (.rekeyReceive :: calls) (.rekey :: marks) left
  /-- The receiver may be the first to change the key. -/
  | ahead {t : Transport} {calls : List Call} {left : List Mark}
      (h : Follows (t.after .rekeyReceive) calls [] left) :
      Follows t (.rekeyReceive :: calls) [] left
  | reject {t : Transport} {message area : Bytes} {e : Error} {calls : List Call}
      {marks left : List Mark} (hreject : (t.read message area).result = .error e)
      (h : Follows (t.after (.read message area)) calls marks left) :
      Follows t (.read message area :: calls) marks left
  | send {t : Transport} {call : Call} {calls : List Call} {marks left : List Mark}
      (hsends : call.sends = true) (h : Follows (t.after call) calls marks left) :
      Follows t (call :: calls) marks left

section Receive

variable {t : Transport} {message area : Bytes}

theorem after_read_error {e : Error} (h : (t.read message area).result = .error e) :
    t.after (.read message area) = t := by
  have hstate := CipherState.state_decrypt t.receive [] message area
  have hres : (t.receive.decrypt [] message area).result = .error e := h
  rw [hres] at hstate
  show ({ t with receive := (t.receive.decrypt [] message area).state } : Transport) = t
  rw [hstate]
  rfl

theorem accepted_read_error {e : Error} (h : (t.read message area).result = .error e) :
    t.accepted? (.read message area) = none := by
  show ((t.read message area).result.map _).toOption = none
  rw [h]
  rfl

/-- A message that is the next one is accepted, if there is room for it. -/
theorem read_next (ht : t.receive.Keyed) {payload : Bytes} (hn : ¬ t.receive.Exhausted)
    (hmessage : message = t.receive.ciphertext [] payload) (hroom : payload.length ≤ area.length) :
    (t.read message area).written = .ok payload ∧
      (t.after (.read message area)).receive = t.receive.passed := by
  subst hmessage
  obtain ⟨hres, hstate, harea⟩ :=
    @CipherState.decrypt_ciphertext t.receive ht.wellKeyed hn [] payload area hroom
  refine ⟨?_, hstate⟩
  show (t.receive.decrypt [] _ area).result.map _ = _
  rw [hres]
  exact congrArg Except.ok harea

theorem keyed_receive_after (ht : t.receive.Keyed) (call : Call) :
    (t.after call).receive.Keyed := by
  cases call with
  | write payload area => exact ht
  | read message area =>
    show (t.receive.decrypt [] message area).state.Keyed
    rw [CipherState.state_decrypt]
    split
    · exact ht.passed
    · exact ht
  | rekeySend => exact ht
  | rekeyReceive => exact ht.rekey
  | setReceiveNonce nonce => exact ht

theorem kind_receive_after (t : Transport) (call : Call) :
    (t.after call).receive.kind = t.receive.kind := by
  cases call with
  | write payload area => rfl
  | read message area =>
    show (t.receive.decrypt [] message area).state.kind = _
    rw [CipherState.state_decrypt]
    split
    · exact CipherState.passed_kind _
    · rfl
  | rekeySend => rfl
  | rekeyReceive => rfl
  | setReceiveNonce nonce => rfl

theorem receive_afterAll (ht : t.receive.Keyed) (calls : List Call) :
    (t.afterAll calls).receive.Keyed ∧ (t.afterAll calls).receive.kind = t.receive.kind := by
  induction calls generalizing t with
  | nil => exact ⟨ht, rfl⟩
  | cons call calls ih =>
    obtain ⟨hkeyed, hkind⟩ := ih (keyed_receive_after ht call)
    exact ⟨hkeyed, hkind.trans (kind_receive_after t call)⟩

end Receive

/-- A transport that goes along what its peer's cipher produces accepts exactly the payloads that have
been sent, in their order. -/
theorem Emits.follows {t : Transport} {calls : List Call} {marks left : List Mark}
    (ht : t.receive.Keyed) (hemits : Emits t.receive marks) (h : Follows t calls marks left) :
    t.accepted calls ++ payloads left = payloads marks := by
  -- at each call the cipher for receiving stands where the peer's stood before the next mark
  induction h with
  | done => rfl
  | @deliver t payload message area calls marks left hroom h ih =>
    obtain ⟨hmessage, hn, hrest⟩ := hemits
    obtain ⟨hwritten, hreceive⟩ := read_next ht hn hmessage hroom
    rw [← hreceive] at hrest
    have hall := ih (keyed_receive_after ht _) hrest
    have haccepted : t.accepted? (.read message area) = some payload := by
      show (t.read message area).written.toOption = _
      rw [hwritten]
      rfl
    rw [accepted, haccepted]
    exact congrArg (payload :: ·) hall
  | rekey h ih => exact ih ht.rekey hemits
  | ahead h ih => exact ih ht.rekey trivial
  | @reject t message area e calls marks left hreject h ih =>
    -- the same marks are still ahead
    rw [accepted, accepted_read_error hreject]
    rw [after_read_error hreject] at ih ⊢
    exact ih ht hemits
  | @send t call calls marks left hsends h ih =>
    have hreceive : (t.after call).receive = t.receive := direction_receive.apart (congrArg not hsends)
    have hnone : t.accepted? call = none := by
      cases call with
      | read message area => cases hsends
      | write payload area => rfl
      | rekeySend => rfl
      | rekeyReceive => rfl
      | setReceiveNonce nonce => rfl
    rw [accepted, hnone]
    rw [hreceive] at ih
    exact ih ht hemits

/-- A message is accepted under its number by a transport that has its key, whatever has gone before. -/
theorem read_numbered {t : Transport} {kind : CipherKind} {i : Nat} {x : Sealing}
    (hx : Numbered kind i x) (hkind : t.receive.kind = kind) (hkey : t.receive.key = x.key)
    {area : Bytes} (hroom : x.payload.length ≤ area.length) :
    ((t.setReceiveNonce (UInt64.ofNat i)).read x.message area).written = .ok x.payload := by
  obtain ⟨hcounter, hn, key, hsome, hlen, hmessage⟩ := hx
  have hnumber : UInt64.ofNat i = x.counter := by
    rw [← hcounter]
    exact UInt64.ofNat_toNat
  have hsomekey : t.receive.key = some key := hkey.trans hsome
  have hkeyed : (t.setReceiveNonce (UInt64.ofNat i)).receive.Keyed := ⟨key, hsomekey, hlen⟩
  have hfresh : ¬ (t.setReceiveNonce (UInt64.ofNat i)).receive.Exhausted := by
    intro hlast
    exact hn (hnumber.symm.trans hlast.2)
  have hsealed : x.message =
      (t.setReceiveNonce (UInt64.ofNat i)).receive.ciphertext [] x.payload := by
    show _ = CipherState.ciphertext ⟨t.receive.kind, t.receive.key, UInt64.ofNat i⟩ [] x.payload
    rw [hsomekey, hkind, hnumber, hmessage]
    rfl
  exact (read_next hkeyed hfresh hsealed hroom).1

end Transport

/-! ## Both ends -/

/-- The two ends of a channel. -/
structure Channel where
  initiator : Transport
  responder : Transport

namespace Channel

def party (c : Channel) : Role → Transport
  | .initiator => c.initiator
  | .responder => c.responder

def after (c : Channel) : Role × Transport.Call → Channel
  | (.initiator, call) => { c with initiator := c.initiator.after call }
  | (.responder, call) => { c with responder := c.responder.after call }

/-- The channel after calls on both ends, in any order. -/
def run (c : Channel) (events : List (Role × Transport.Call)) : Channel := events.foldl after c

/-- The calls on the end in `role`. -/
def calls (role : Role) (events : List (Role × Transport.Call)) : List Transport.Call :=
  (events.filter fun event => event.1 = role).map Prod.snd

/-- Nothing but the calls on an end has an influence on it. -/
theorem party_run (c : Channel) (events : List (Role × Transport.Call)) (role : Role) :
    (c.run events).party role = (c.party role).afterAll (calls role events) := by
  induction events generalizing c with
  | nil => rfl
  | cons event events ih =>
    obtain ⟨caller, call⟩ := event
    show ((c.after (caller, call)).run events).party role = _
    rw [ih]
    cases caller <;> cases role <;> rfl

end Channel

/-- A session in which both parties agree leads to a channel whose ends have crossed ciphers. -/
theorem Session.Agreed.channel {s : Session} (h : s.Agreed) :
    ∃ c : Channel, Transport.ofHandshake s.initiator = .ok c.initiator ∧
      Transport.ofHandshake s.responder = .ok c.responder ∧
      ∀ role, (c.party role).send = (c.party role.peer).receive := by
  obtain ⟨there, back, hi, hr, -⟩ := h.split_eq
  have hmade : ∀ (h : Handshake) (send receive : CipherState), h.split.2 = .ok (send, receive) →
      ∃ hash, Transport.ofHandshake h = .ok ⟨send, receive, hash⟩ := by
    intro h send receive hsplit
    unfold Handshake.split at hsplit
    split at hsplit
    · rename_i role symmetric hphase hrole hsymmetric
      refine ⟨symmetric.split.1, ?_⟩
      simp only [Transport.ofHandshake, Handshake.split, hphase, hrole, hsymmetric]
      cases role with
      | initiator =>
        cases hsplit
        rfl
      | responder =>
        cases hsplit
        rfl
    · cases hsplit
  obtain ⟨hash, ha⟩ := hmade _ _ _ hi
  obtain ⟨hash', hb⟩ := hmade _ _ _ hr
  refine ⟨⟨⟨there, back, hash⟩, ⟨back, there, hash'⟩⟩, ha, hb, ?_⟩
  intro role
  cases role <;> rfl

/-- In a channel with crossed ciphers, however the calls on its two ends are mixed: an end that goes
along what the other one sends accepts exactly the payloads sent; a message is accepted under its
number by an end that has its key, whatever has happened to it; and neither direction of an end is
affected by calls for the other one. -/
theorem channel_delivers {i r : Handshake} {c : Channel}
    (hi : Transport.ofHandshake i = .ok c.initiator)
    (hr : Transport.ofHandshake r = .ok c.responder)
    (hcrossed : ∀ role, (c.party role).send = (c.party role.peer).receive)
    (events : List (Role × Transport.Call)) (role : Role) :
    let sender := c.party role
    let sent := Channel.calls role events
    let receiver := c.party role.peer
    let received := Channel.calls role.peer events
    (∀ left, Transport.Follows receiver received (sender.marks sent) left →
      receiver.accepted received ++ Transport.payloads left =
        (sender.sealings sent).map Transport.Sealing.payload) ∧
    (∀ (n : Nat) x area, (sender.sealings sent)[n]? = some x → x.payload.length ≤ area.length →
      ((c.run events).party role.peer).receive.key = x.key →
      ((((c.run events).party role.peer).setReceiveNonce (UInt64.ofNat n)).read x.message
        area).written = .ok x.payload) ∧
    (sender.answers Transport.Call.sends sent =
        sender.answers Transport.Call.sends (sent.filter Transport.Call.sends) ∧
      ((c.run events).party role).send =
        (sender.afterAll (sent.filter Transport.Call.sends)).send) ∧
    (receiver.answers Transport.Call.receives received =
        receiver.answers Transport.Call.receives (received.filter Transport.Call.receives) ∧
      ((c.run events).party role.peer).receive =
        (receiver.afterAll (received.filter Transport.Call.receives)).receive) := by
  intro sender sent receiver received
  have hends : ∀ role, (c.party role).send.Keyed ∧ (c.party role).receive.Keyed ∧
      (c.party role).send.nonce = 0 := by
    intro role
    cases role with
    | initiator =>
      obtain ⟨hsend, hreceive, hzero, -⟩ := Transport.ofHandshake_keyed hi
      exact ⟨hsend, hreceive, hzero⟩
    | responder =>
      obtain ⟨hsend, hreceive, hzero, -⟩ := Transport.ofHandshake_keyed hr
      exact ⟨hsend, hreceive, hzero⟩
  obtain ⟨hsend, -, hzero⟩ := hends role
  obtain ⟨-, hreceive, -⟩ := hends role.peer
  rw [Channel.party_run, Channel.party_run]
  refine ⟨?_, ?_, Transport.direction_send.answers_filter rfl sent,
    Transport.direction_receive.answers_filter rfl received⟩
  · intro left hfollows
    have hemits := Transport.emits_marks hsend sent
    rw [hcrossed role] at hemits
    rw [← Transport.payloads_marks]
    exact hemits.follows hreceive hfollows
  · intro n x area hx hroom hkey
    obtain ⟨-, hall⟩ := Transport.numbered_sealings hsend sent
    have hnumbered := hall n x hx
    have hstart : sender.sendNonce.toNat = 0 := congrArg UInt64.toNat hzero
    rw [hstart, Nat.zero_add] at hnumbered
    obtain ⟨-, hkind⟩ := Transport.receive_afterAll hreceive received
    refine Transport.read_numbered hnumbered ?_ hkey hroom
    rw [hkind, hcrossed role]

/-- Between two messages the key is changed; the receiver is fed a forged message and is short of room
once, and its own messages are in between. The second message is accepted once more under its
number. -/
theorem channel_delivers_rekeyed :
    let symmetric := (SymmetricState.start Protocol.nnPsk0ChaChaPolyBlake2s.name .chaChaPoly
      .blake2s).mixKeyAndHash [1]
    let c : Channel :=
      ⟨⟨symmetric.split.2.1, symmetric.split.2.2, symmetric.split.1⟩,
        ⟨symmetric.split.2.2, symmetric.split.2.1, symmetric.split.1⟩⟩
    let first := (c.initiator.write [1, 2] (Bytes.zeros 18)).area
    let second := ((c.initiator.after (.write [1, 2] (Bytes.zeros 18))).rekeySend.write [3]
      (Bytes.zeros 17)).area
    let events : List (Role × Transport.Call) := [(.initiator, .write [1, 2] (Bytes.zeros 18)),
      (.responder, .read (Bytes.zeros 20) (Bytes.zeros 20)), (.initiator, .rekeySend),
      (.responder, .read first (Bytes.zeros 2)), (.responder, .rekeyReceive),
      (.initiator, .write [3] (Bytes.zeros 17)), (.responder, .read second []),
      (.responder, .write [4] (Bytes.zeros 17)), (.responder, .read second (Bytes.zeros 1))]
    c.responder.accepted (Channel.calls .responder events) = [[1, 2], [3]] ∧
      ((((c.run events).party .responder).setReceiveNonce 1).read second
        (Bytes.zeros 1)).written = .ok [3] := by
  intro symmetric c first second events
  let party (role : Role) : Handshake := { Handshake.new .nnPsk0ChaChaPolyBlake2s with
    symmetric := some symmetric, role := some role, phase := .split, messageNumber := 2 }
  have hi : Transport.ofHandshake (party .initiator) = .ok c.initiator := rfl
  have hr : Transport.ofHandshake (party .responder) = .ok c.responder := rfl
  have hcrossed : ∀ role, (c.party role).send = (c.party role.peer).receive := by
    intro role
    cases role <;> rfl
  let forged : Transport.Call := .read (Bytes.zeros 20) (Bytes.zeros 20)
  let rekeyed := ((c.responder.after forged).after (.read first (Bytes.zeros 2))).after .rekeyReceive
  obtain ⟨hmarks, hsealings, hforged, hshort, hkey⟩ :
      c.initiator.marks (Channel.calls .initiator events) =
        [.message [1, 2] first, .rekey, .message [3] second] ∧
      c.initiator.sealings (Channel.calls .initiator events) =
        [⟨c.initiator.send.key, 0, [1, 2], first⟩,
          ⟨c.initiator.send.rekey.key, 1, [3], second⟩] ∧
      (c.responder.read (Bytes.zeros 20) (Bytes.zeros 20)).result = .error .cryptoFailed ∧
      (rekeyed.read second []).result = .error .bufferTooSmall ∧
      ((c.run events).party .responder).receive.key = c.initiator.send.rekey.key := by
    decide +kernel
  have hfollows : Transport.Follows c.responder (Channel.calls .responder events)
      (c.initiator.marks (Channel.calls .initiator events)) [] := by
    rw [hmarks]
    refine .reject hforged (.deliver (by decide) (.rekey ?_))
    exact .reject hshort (.send rfl (.deliver (by decide) .done))
  obtain ⟨horder, hnumber, -⟩ := channel_delivers hi hr hcrossed events .initiator
  have hall := horder [] hfollows
  have hsecond := hnumber 1 ⟨c.initiator.send.rekey.key, 1, [3], second⟩ (Bytes.zeros 1)
    (congrArg (·[1]?) hsealings) (by decide) hkey
  have hpayloads := congrArg (List.map Transport.Sealing.payload) hsealings
  rw [Transport.payloads, List.append_nil] at hall
  constructor
  · exact hall.trans hpayloads
  · exact hsecond

end NoiseChannel
